import Xv6.Ptable.Table

/-!
# Every step keeps the invariants of the process table
-/

namespace Xv6.Ptable

open Lib Function List

variable {C : Type} {s : State C} {c : C} {p np i : Slot} {t : State C}

namespace Table

section

variable (h : Table s)

include h

theorem allocproc (hlive : s.life p = .live) (howns : s.owned p = none) :
    Table (s.allocproc p) := by
  unfold State.allocproc
  split
  · apply h.setPc
    rw [howns]
    rfl
  · rename_i np hfind
    have hunused : (s.procs np).state = .unused := by simpa using List.find?_some hfind
    have hlife : s.life np = .unused := by simp [State.life, hunused, ProcState.life]
    have hnone : s.owned np = none := h.owned_eq_none (by rw [hlife]; decide)
    have hne : np ≠ p := by
      rintro rfl
      rw [hlife] at hlive
      cases hlive
    have ht : _ = ((s.setProc np { s.procs np with state := .embryo, pid := s.nextpid }).setPc p
      (.forkStack np)).procs := rfl
    refine h.pair hne ht rfl rfl ?_ (by simp) (by simp) ?_
    · simp [hunused]
    · have hfam := h.family.alloc hlive hlife
      change Family (update s.life np .embryo)
        (update s.parents np (s.parents np))
        (update (update s.owned np (s.owned np)) p (some (np, false))) _
      simp only [update_eq_self]
      exact hfam

theorem forkStep {r : Bool} (hp : s.owned p = some (np, r)) {x : Proc} {pc : Pc}
    (hstate : x.state = .unused ∨ x.state = .embryo ∨ x.state = .runnable)
    (howns : x.pc.owns = none)
    (hfam : Family (update s.life np x.state.life)
      (update s.parents np x.parent) (update s.owned p pc.owns) s.initproc) :
    Table ((s.setProc np x).setPc p pc) := by
  obtain ⟨hembryo, -, -⟩ := h.family.owner _ _ _ hp
  have hold : (s.procs np).state = .embryo := by
    have hl : (s.procs np).state.life = .embryo := hembryo
    cases hs : (s.procs np).state <;> simp_all [ProcState.life]
  have hnone : s.owned np = none := h.owned_eq_none (by rw [hembryo]; decide)
  refine h.pair (h.family.owner_ne hp) rfl rfl rfl ?_ ?_ ?_ ?_
  · rcases hstate with hx | hx | hx <;> simp [hx, hold]
  · rcases hstate with hx | hx | hx <;> simp [hx]
  · rcases hstate with hx | hx | hx <;> simp [hx]
  · rw [howns, ← hnone, update_eq_self]
    exact hfam

theorem pc_owns_of_owned {r : Bool} (hp : s.owned p = some (np, r)) : (s.procs np).pc.owns = none :=
  h.owned_eq_none (by rw [(h.family.owner _ _ _ hp).1]; decide)

theorem stack (hp : (s.procs p).pc = .forkStack np) :
    Table ((s.setPc np .forkret).setPc p (.forkCopy np)) := by
  have howned : s.owned p = some (np, false) := by simp [State.owned, hp, Pc.owns]
  obtain ⟨hembryo, hlive, hpar⟩ := h.family.owner _ _ _ howned
  have hstate : (s.procs np).state.life = .embryo := hembryo
  refine h.forkStep howned (x := { s.procs np with pc := .forkret }) ?_ rfl ?_
  · right
    left
    cases hs : (s.procs np).state <;> simp_all [ProcState.life]
  · change Family (update s.life np (s.life np))
      (update s.parents np (s.parents np))
      (update s.owned p (some (np, false))) _
    rw [← howned]
    simp only [update_eq_self]
    exact h.family

theorem copy (hp : (s.procs p).pc = .forkCopy np) :
    Table ((s.setProc np { s.procs np with parent := some p }).setPc p (.forkReady np)) := by
  have howned : s.owned p = some (np, false) := by simp [State.owned, hp, Pc.owns]
  have hstate : (s.procs np).state.life = .embryo := (h.family.owner _ _ _ howned).1
  refine h.forkStep howned ?_ (h.pc_owns_of_owned howned) ?_
  · right
    left
    change (s.procs np).state = .embryo
    cases hs : (s.procs np).state <;> simp_all [ProcState.life]
  · change Family (update s.life np (s.life np)) (update s.parents np (some p))
      (update s.owned p (some (np, true))) _
    simp only [update_eq_self]
    exact h.family.setParent howned

theorem unfork (howned : s.owned p = some (np, false)) : Table (s.unfork p np) := by
  refine h.forkStep howned (Or.inl rfl) (h.pc_owns_of_owned howned) ?_
  change Family (update s.life np .unused) (update s.parents np (s.parents np))
    (update s.owned p none) _
  rw [update_eq_self]
  exact h.family.unfork howned

theorem ready (hp : (s.procs p).pc = .forkReady np) {r : BitVec 32} :
    Table ((s.setProc np { s.procs np with state := .runnable }).setPc p (.ret r)) := by
  have howned : s.owned p = some (np, true) := by simp [State.owned, hp, Pc.owns]
  refine h.forkStep howned (Or.inr (Or.inr rfl)) (h.pc_owns_of_owned howned) ?_
  change Family (update s.life np .live) (update s.parents np (s.parents np))
    (update s.owned p none) _
  rw [update_eq_self]
  exact h.family.ready howned

end

/-- What `exit` has done after it has looked at the slots of `done`. -/
structure Adopted (p : Slot) (s t : State C) (done : List Slot) : Prop where
  table : Table t
  cpus : t.cpus = s.cpus
  initproc : t.initproc = s.initproc
  pc : ∀ j, (t.procs j).pc = (s.procs j).pc
  parent : t.parents p = s.parents p
  dozes : ∀ j, t.Dozes j → s.Dozes j
  kids : ∀ i ∈ done, t.parents i ≠ some p

theorem adopt_kid (h : Table t) (hp : t.owned p = none)
    (hi : t.parents i = some p) : Table (t.adopt p i) := by
  have hparent : (t.procs i).parent = some p := hi
  have hfam := h.family.adopt hp hi
  obtain ⟨y, hy⟩ : ∃ y, y = { t.procs i with parent := some t.initproc } := ⟨_, rfl⟩
  have hlife : (t.setProc i y).life = t.life := by
    rw [State.life_setProc, hy]
    exact update_eq_self i t.life
  have howned : (t.setProc i y).owned = t.owned := by
    rw [State.owned_setProc, hy]
    exact update_eq_self i t.owned
  have hruns : (t.setProc i y).runs = t.runs := by
    rw [State.runs_setProc, hy]
    exact update_eq_self i t.runs
  have hdozes : ∀ j, (t.setProc i y).Dozes j → t.Dozes j := by
    intro j hj
    by_cases hji : j = i
    · subst hji
      simpa [State.Dozes, State.setProc_self, hy] using hj
    · simpa [State.Dozes, State.setProc_of_ne hji] using hj
  have hzombie : ∀ z j, (t.setProc i y).ZombieOf z j →
      t.ZombieOf z j ∨ z = i ∧ j = t.initproc ∧ (t.procs i).state = .zombie := by
    intro z j hz
    by_cases hzi : z = i
    · subst hzi
      have hz' : (t.procs z).state = .zombie ∧ t.initproc = j := by
        simpa [State.ZombieOf, State.setProc_self, hy] using hz
      exact Or.inr ⟨rfl, hz'.2.symm, hz'.1⟩
    · left
      simpa [State.ZombieOf, State.setProc_of_ne hzi] using hz
  -- all but the sleepers
  have hrest : ∀ u : State C, u.runs = (t.setProc i y).runs → u.on = t.on →
      u.life = (t.setProc i y).life → u.parents = (t.setProc i y).parents →
      u.owned = (t.setProc i y).owned → u.initproc = t.initproc →
      (∀ j z, u.Dozes j → ¬ u.ZombieOf z j) → Table u := by
    intro u h1 h2 h3 h4 h5 h6 hsleep
    refine ⟨?_, ?_, hsleep⟩
    · rw [h1, h2, hruns]
      exact h.cpus
    · rw [h3, h4, h5, h6, hlife, howned, State.parents_setProc, hy]
      exact hfam
  unfold State.adopt
  simp only [hparent, if_true]
  rw [← hy]
  split_ifs with hz
  · refine hrest _ State.runs_wakeup1 rfl State.life_wakeup1 State.parents_wakeup1
      State.owned_wakeup1 rfl ?_
    intro j z hj hzj
    rcases hzombie z j (zombieOf_of_wakeup1 hzj) with hold | ⟨-, hinit, -⟩
    · exact h.asleep j z (hdozes j (dozes_of_wakeup1 hj)) hold
    · rw [hinit] at hj
      exact not_dozes_wakeup1 _ _ hj
  · refine hrest _ rfl rfl rfl rfl rfl rfl ?_
    intro j z hj hzj
    rcases hzombie z j hzj with hold | ⟨-, -, hzom⟩
    · exact h.asleep j z (hdozes j hj) hold
    · exact hz hzom

theorem adopt_frame (t : State C) (p i : Slot) : (t.adopt p i).cpus = t.cpus ∧
    (t.adopt p i).initproc = t.initproc ∧
    (∀ j, ((t.adopt p i).procs j).pc = (t.procs j).pc) ∧
    ∀ j, (t.adopt p i).Dozes j → t.Dozes j := by
  have hset : ∀ j, (((t.setProc i { t.procs i with parent := some t.initproc }).procs j).pc =
      (t.procs j).pc) ∧
      ((t.setProc i { t.procs i with parent := some t.initproc }).Dozes j → t.Dozes j) := by
    intro j
    by_cases hj : j = i
    · subst hj
      simp [State.Dozes, State.setProc_self]
    · simp [State.Dozes, State.setProc_of_ne hj]
  have hwake : ∀ (u : State C) chan j, ((u.wakeup1 chan).procs j).pc = (u.procs j).pc := by
    intro u chan j
    simp only [State.wakeup1]
    split_ifs <;> rfl
  unfold State.adopt
  simp only
  split_ifs
  · refine ⟨rfl, rfl, ?_, ?_⟩
    · intro j
      rw [hwake]
      exact (hset j).1
    · intro j hj
      exact (hset j).2 (dozes_of_wakeup1 hj)
  · exact ⟨rfl, rfl, fun j => (hset j).1, fun j => (hset j).2⟩
  · exact ⟨rfl, rfl, fun _ => rfl, fun _ => id⟩

theorem parents_adopt (hi : t.parents i = some p) :
    (t.adopt p i).parents = update t.parents i (some t.initproc) := by
  have hparent : (t.procs i).parent = some p := hi
  unfold State.adopt
  simp only [hparent, if_true]
  split_ifs
  · rw [State.parents_wakeup1, State.parents_setProc]
  · rw [State.parents_setProc]

theorem Adopted.round {done : List Slot} (h : Adopted p s t done) (hp : s.owned p = none)
    (hinit : p ≠ s.initproc) (i : Slot) : Adopted p s (t.adopt p i) (i :: done) := by
  obtain ⟨hcpus, hinitproc, hpc, hdozes⟩ := adopt_frame t p i
  by_cases hi : t.parents i = some p
  · have hpar := parents_adopt hi
    have howned : t.owned p = none := by
      rw [← hp]
      exact congrArg Pc.owns (h.pc p)
    refine ⟨adopt_kid h.table howned hi, ?_, ?_, ?_, ?_, ?_, ?_⟩
    · rw [hcpus, h.cpus]
    · rw [hinitproc, h.initproc]
    · intro j
      rw [hpc, h.pc]
    · rw [hpar, update_of_ne, h.parent]
      rintro rfl
      exact h.table.family.irrefl p hi
    · exact fun j hj => h.dozes j (hdozes j hj)
    · intro j hj
      rw [hpar, update_apply]
      split_ifs with hji
      · rw [h.initproc]
        simpa using hinit.symm
      · rcases mem_cons.mp hj with hj | hj
        · exact absurd hj hji
        · exact h.kids j hj
  · have hsame : t.adopt p i = t := by
      unfold State.adopt
      exact if_neg hi
    rw [hsame]
    refine { h with kids := ?_ }
    intro j hj
    rcases mem_cons.mp hj with rfl | hj
    · exact hi
    · exact h.kids j hj

theorem Adopted.loop {done : List Slot} (h : Adopted p s t done)
    (hp : s.owned p = none) (hinit : p ≠ s.initproc) (slots : List Slot) :
    Adopted p s (slots.foldl (State.adopt p) t) (slots.reverse ++ done) := by
  induction slots generalizing t done with
  | nil => exact h
  | cons i rest ih =>
    rw [foldl_cons, reverse_cons, append_assoc]
    exact ih (h.round hp hinit i)

variable [DecidableEq C]

theorem bury (h : Table s) (hcpu : (s.cpus c).proc = some p) (hp : s.owned p = none)
    (hinit : p ≠ s.initproc) (hkids : ∀ i, s.parents i ≠ some p)
    (hawake : ∀ j, s.parents p = some j → ¬ s.Dozes j) :
    Table ((s.setProc p { s.procs p with state := .zombie, pc := .exited }).sched c p) := by
  refine h.leave hcpu (by simp) (family_setProc ?_ rfl rfl rfl)
    (h.asleep_setProc (by simp) fun _ => hawake)
  have hfam := h.family.exit (h.life_of_on hcpu) hinit hp hkids
  rwa [← update_eq_self p s.parents, ← update_eq_self p s.owned, hp] at hfam

theorem exit (h : Table s) (hcpu : (s.cpus c).proc = some p) (hpc : (s.procs p).pc = .user)
    (hinit : p ≠ s.initproc) : Table (s.exit c p) := by
  obtain ⟨s1, hs1⟩ : ∃ s1, s1 = s.wakeup1 ((s.procs p).parent.map .proc) := ⟨_, rfl⟩
  have h1 : Table s1 := by
    rw [hs1]
    exact h.wakeup1 _
  have howned : s1.owned p = none := by
    rw [hs1, State.owned_wakeup1]
    simp [State.owned, hpc, Pc.owns]
  have hinit1 : p ≠ s1.initproc := by
    rw [hs1]
    exact hinit
  have hstart : Adopted p s1 s1 [] :=
    ⟨h1, rfl, rfl, fun _ => rfl, rfl, fun _ => id, by simp⟩
  have hloop := hstart.loop howned hinit1 (List.finRange NPROC)
  unfold State.exit
  simp only
  rw [← hs1]
  refine bury hloop.table ?_ ?_ ?_ ?_ ?_
  · rw [hloop.cpus, hs1]
    exact hcpu
  · rw [← howned]
    exact congrArg Pc.owns (hloop.pc p)
  · rw [hloop.initproc]
    exact hinit1
  · intro i
    apply hloop.kids
    simp
  · intro j hj hdoze
    have hdoze := hloop.dozes j hdoze
    rw [hloop.parent, hs1, State.parents_wakeup1] at hj
    have hparent : (s.procs p).parent = some j := hj
    rw [hs1, hparent] at hdoze
    exact not_dozes_wakeup1 s j hdoze

omit [DecidableEq C] in
theorem reap (h : Table s) (hi : (s.procs i).state = .zombie) : Table (s.reap i) := by
  have hlife : s.life i = .zombie := by simp [State.life, hi, ProcState.life]
  refine ⟨?_, ?_, h.asleep_setProc (by simp) (by simp)⟩
  · have hsame : (s.reap i).runs = s.runs := by
      unfold State.reap
      rw [State.runs_setProc, ← update_eq_self i s.runs]
      simp [State.runs, hi]
    rw [hsame]
    exact h.cpus
  · refine family_setProc ?_ rfl rfl rfl
    change Family (update s.life i .unused) (update s.parents i none)
      (update s.owned i (s.owned i)) s.initproc
    rw [update_eq_self]
    exact h.family.reap hlife

theorem wait (h : Table s) (hcpu : (s.cpus c).proc = some p)
    (hpc : (s.procs p).pc = .waitScan) : Table (s.wait c p) := by
  have howned : s.owned p = none := by simp [State.owned, hpc, Pc.owns]
  unfold State.wait
  simp only
  split
  · rename_i i hfind
    have hi := List.find?_some hfind
    simp only [Bool.and_eq_true, decide_eq_true_eq] at hi
    apply setLock
    apply (h.reap hi.2).setPc
    have hsame : (s.reap i).owned = s.owned := by
      unfold State.reap
      rw [State.owned_setProc]
      exact update_eq_self i s.owned
    rw [hsame, howned]
    rfl
  · rename_i hfind
    split_ifs
    · apply setLock
      apply h.setPc
      rw [howned]
      rfl
    · refine h.park hcpu ?_ rfl rfl ?_ ?_
      · simp
      · rw [howned]
        rfl
      · rintro - - z ⟨hz, hpar⟩
        rw [List.find?_eq_none] at hfind
        exact hfind z (mem_finRange z) (by simp [hz, hpar])

omit [DecidableEq C] in
theorem kill (h : Table s) (hpc : (s.procs p).pc = .user) (pid : BitVec 32) :
    Table (s.kill p pid) := by
  have howned : s.owned p = none := by simp [State.owned, hpc, Pc.owns]
  unfold State.kill
  split
  · apply h.setPc
    rw [howned]
    rfl
  · rename_i i _
    simp only
    have hset : Table (s.setProc i { s.procs i with
        killed := true
        state := if (s.procs i).state = .sleeping then .runnable else (s.procs i).state }) := by
      refine h.setProc ?_ ?_ rfl rfl ?_
      · dsimp only
        split_ifs with hs <;> simp [hs]
      · dsimp only [State.life]
        split_ifs with hs <;> simp [hs, ProcState.life]
      · intro hs
        dsimp only at hs
        split_ifs at hs with hs'
        exact absurd hs hs'
    apply hset.setPc
    rw [State.owned_setProc]
    change none = update s.owned i (s.owned i) p
    rw [update_eq_self, howned]

theorem dispatch (h : Table s) (hcpu : (s.cpus c).proc = none)
    (hi : (s.procs i).state = .runnable) {k : Option Nat} :
    Table { s.setProc i { s.procs i with state := .running } with
      cpus := update s.cpus c ⟨some i, k⟩ } := by
  have hlife : s.life i = .live := by simp [State.life, hi, ProcState.life]
  refine ⟨?_, family_setProc ?_ hlife.symm rfl rfl, h.asleep_setProc (by simp) (by simp)⟩
  · have hruns : (s.setProc i { s.procs i with state := .running }).runs =
        update s.runs i true := by
      rw [State.runs_setProc]
      simp
    change OnCpu (s.setProc i { s.procs i with state := .running }).runs _
    have hon : (fun d => (update s.cpus c ⟨some i, k⟩ d).proc) = update s.on c (some i) := by
      funext d
      simp only [State.on, update_apply]
      split_ifs <;> rfl
    rw [hruns]
    change OnCpu _ fun d => (update s.cpus c ⟨some i, k⟩ d).proc
    rw [hon]
    exact h.cpus.dispatch (by simp [State.runs, hi]) hcpu
  · change Family (update s.life i (s.life i)) (update s.parents i (s.parents i))
      (update s.owned i (s.owned i)) s.initproc
    simp only [update_eq_self]
    exact h.family

theorem setScan (h : Table s) (hcpu : (s.cpus c).proc = none) (k : Option Nat) (lock : Option C) :
    Table { s with cpus := update s.cpus c ⟨none, k⟩, lock := lock } := by
  have hon : (fun d => (update s.cpus c ⟨none, k⟩ d).proc) = s.on := by
    funext d
    rw [update_apply]
    split_ifs with hd
    · rw [hd]
      exact hcpu.symm
    · rfl
  refine ⟨?_, h.family, h.asleep⟩
  change OnCpu s.runs fun d => (update s.cpus c ⟨none, k⟩ d).proc
  rw [hon]
  exact h.cpus

theorem moves {s' : State C} {a : Action C} (h : Table s) (hmove : Moves s a s') : Table s' := by
  have howned : ∀ {q pc}, (s.procs q).pc = pc → s.owned q = pc.owns := by
    rintro q pc rfl
    rfl
  cases hmove with
  | acquire hcpu | skip hcpu | loop hcpu => exact h.setScan hcpu _ _
  | dispatch hcpu hstate => exact h.dispatch hcpu hstate
  | yield hcpu => exact h.park hcpu (by simp) rfl rfl rfl (by simp)
  | fork hcpu hpc => exact h.allocproc (h.life_of_on hcpu) (howned hpc)
  | exit hcpu hpc hinit => exact h.exit hcpu hpc hinit
  | kill hcpu hpc => exact h.kill hpc _
  | sleep hcpu hpc => exact h.park hcpu (by simp) rfl rfl (howned hpc).symm (by simp)
  | stack hcpu hpc => exact h.stack hpc
  | noStack hcpu hpc | noCopy hcpu hpc => exact h.unfork (howned hpc)
  | copy hcpu hpc => exact h.copy hpc
  | ready hcpu hpc => exact h.ready hpc
  | ret hcpu hpc => exact h.setPc (howned hpc).symm
  | scan hcpu hpc => exact h.wait hcpu hpc
  | waiting hcpu hpc => exact h.setProc Iff.rfl rfl rfl (howned hpc).symm (by simp)
  | sleeping hcpu hpc =>
    apply setLock
    exact h.setProc Iff.rfl rfl rfl (howned hpc).symm (by simp)
  | wait hcpu hpc | yielding hcpu hpc | forkret hcpu hpc =>
    refine setLock (h.setPc ?_) _
    exact (howned hpc).symm
  | wakeup => exact h.wakeup1 _

omit [DecidableEq C] in
theorem init : Table (init : State C) where
  cpus := by
    refine ⟨?_, ?_⟩
    · intro i
      simp only [State.runs, State.on, Ptable.init]
      split_ifs <;> simp
    · intro c d i hc
      cases hc
  family := by
    have hlife : ∀ i, (Ptable.init : State C).life i = if i = 0 then .live else .unused := by
      intro i
      simp only [State.life, Ptable.init]
      split_ifs <;> rfl
    have hparents : ∀ i, (Ptable.init : State C).parents i = none := by
      intro i
      simp only [State.parents, Ptable.init]
      split_ifs <;> rfl
    have hnone : ∀ i, (Ptable.init : State C).owned i = none := by
      intro i
      simp only [State.owned, Ptable.init]
      split_ifs <;> rfl
    have hzero : (Ptable.init : State C).initproc = 0 := rfl
    constructor <;> simp [hlife, hparents, hnone, hzero]
    intro i hi
    split_ifs at hi
  asleep := by
    rintro i z ⟨hi, -⟩
    simp only [Ptable.init] at hi
    split_ifs at hi

end Table

theorem table_of_trace {tr : List (State C × Action C)} [DecidableEq C]
    (htr : Trace step init tr s) : Table s :=
  htr.invariant (I := fun _ t => Table t) Table.init
    fun _ _ _ _ _ h hstep => h.moves (moves_of_step hstep)

end Xv6.Ptable
