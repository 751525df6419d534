import Xv6.Ptable.Steps

/-!
# The life of a slot

What one step can do to the life, the pid and the `killed` flag of a slot, said once
for all steps; then the pids of the slots in use.
-/

namespace Xv6.Ptable

open Lib Function List

structure Card where
  life : Life
  pid : BitVec 32
  killed : Bool

def Proc.card (x : Proc) : Card := ⟨x.state.life, x.pid, x.killed⟩

section Frame

variable {C : Type} {s : State C} {i p : Slot} {x : Proc}

def State.card (s : State C) (i : Slot) : Card := (s.procs i).card

namespace State

theorem card_setProc : (s.setProc i x).card = update s.card i x.card :=
  map_setProc Proc.card

theorem card_setProc_eq (hx : x.card = s.card i) : (s.setProc i x).card = s.card := by
  rw [card_setProc, hx, update_eq_self]

theorem card_setPc {pc : Pc} : (s.setPc p pc).card = s.card := card_setProc_eq rfl

theorem card_wakeup1 {chan : Option Chan} : (s.wakeup1 chan).card = s.card :=
  map_wakeup1 Proc.card fun y hy => by simp [Proc.card, hy, ProcState.life]

theorem card_adopt : (s.adopt p i).card = s.card ∧ (s.adopt p i).nextpid = s.nextpid := by
  unfold State.adopt
  simp only
  split_ifs
  · exact ⟨card_wakeup1.trans (card_setProc_eq rfl), rfl⟩
  · exact ⟨card_setProc_eq rfl, rfl⟩
  · exact ⟨rfl, rfl⟩

theorem card_adopts (slots : List Slot) (s : State C) : (slots.foldl (adopt p) s).card = s.card ∧
    (slots.foldl (adopt p) s).nextpid = s.nextpid := by
  induction slots generalizing s with
  | nil => exact ⟨rfl, rfl⟩
  | cons i rest ih =>
    rw [foldl_cons, (ih _).1, (ih _).2]
    exact card_adopt

theorem used_eq : s.used i = true ↔ (s.card i).life ≠ .unused := by
  cases hs : (s.procs i).state <;> simp [used, card, Proc.card, hs, ProcState.life]

end State

end Frame

/-- What a step does to the slot `i`. -/
inductive Turn {C : Type} (s s' : State C) (i : Slot) : Action C → Prop where
  | keep {a : Action C} (hnew : s'.card i = s.card i) : Turn s s' i a
  | alloc {c : C} (hold : (s.card i).life = .unused)
      (hnew : s'.card i = ⟨.embryo, s.nextpid, (s.card i).killed⟩) : Turn s s' i (.call c .fork)
  | unfork {c : C} {p : Slot} (hcpu : (s.cpus c).proc = some p)
      (hpc : (s.procs p).pc = .forkStack i ∨ (s.procs p).pc = .forkCopy i)
      (hold : (s.card i).life = .embryo) (hnew : s'.card i = { s.card i with life := .unused }) :
      Turn s s' i (.step c false)
  | ready {c : C} {ok : Bool} (hold : (s.card i).life = .embryo)
      (hnew : s'.card i = { s.card i with life := .live }) : Turn s s' i (.step c ok)
  | exit {c : C} (hcpu : (s.cpus c).proc = some i) (hold : (s.card i).life = .live)
      (hnew : s'.card i = { s.card i with life := .zombie }) : Turn s s' i (.call c .exit)
  | reap {c : C} {ok : Bool} {p : Slot} (hcpu : (s.cpus c).proc = some p)
      (hpc : (s.procs p).pc = .waitScan) (hparent : (s.procs i).parent = some p)
      (hold : (s.card i).life = .zombie) (hnew : s'.card i = ⟨.unused, 0, false⟩)
      (hret : (s'.procs p).pc = .ret (s.procs i).pid) : Turn s s' i (.step c ok)
  | kill {c : C} {pid : BitVec 32} (hpid : (s.procs i).pid = pid)
      (hnew : s'.card i = { s.card i with killed := true }) : Turn s s' i (.call c (.kill pid))

section Steps

variable {C : Type} [DecidableEq C] {s s' : State C} {a : Action C} {c : C} {p np i : Slot}

omit [DecidableEq C] in
theorem turn_of_update {j : Slot} {x : Card} (hcard : s'.card = update s.card j x)
    (hturn : s'.card j = x → Turn s s' j a) : Turn s s' i a := by
  by_cases hi : i = j
  · subst hi
    apply hturn
    rw [hcard, update_self]
  · apply Turn.keep
    rw [hcard, update_of_ne hi]

omit [DecidableEq C] in
theorem card_park {x : Proc} (h : Table s) (hcpu : (s.cpus c).proc = some p)
    (hx : x.card = { s.card p with life := .live }) : (s.setProc p x).card = s.card := by
  apply State.card_setProc_eq
  rw [hx, ← h.life_of_on hcpu]
  rfl

omit [DecidableEq C] in
theorem turn_allocproc : Turn s (s.allocproc p) i (.call c .fork) := by
  unfold State.allocproc
  split
  · exact .keep (congrFun State.card_setPc i)
  · rename_i np hfind
    have hunused : (s.procs np).state = .unused := by simpa using find?_some hfind
    refine turn_of_update (j := np) (x := ⟨.embryo, s.nextpid, (s.card np).killed⟩) ?_ ?_
    · exact State.card_setPc.trans State.card_setProc
    · intro hnew
      refine .alloc ?_ hnew
      simp [State.card, Proc.card, hunused, ProcState.life]

omit [DecidableEq C] in
theorem turn_unfork (h : Table s) (hcpu : (s.cpus c).proc = some p)
    (hpc : (s.procs p).pc = .forkStack np ∨ (s.procs p).pc = .forkCopy np) :
    Turn s (s.unfork p np) i (.step c false) := by
  have howned : s.owned p = some (np, false) := by
    rcases hpc with hpc | hpc <;> simp [State.owned, hpc, Pc.owns]
  refine turn_of_update (j := np) (x := { s.card np with life := .unused }) ?_ ?_
  · exact State.card_setPc.trans State.card_setProc
  · intro hnew
    exact .unfork hcpu hpc (h.family.owner _ _ _ howned).1 hnew

theorem turn_exit (h : Table s) (hcpu : (s.cpus c).proc = some p) :
    Turn s (s.exit c p) i (.call c .exit) := by
  have hfold := State.card_adopts (p := p) (finRange NPROC)
    (s.wakeup1 ((s.procs p).parent.map .proc))
  rw [State.card_wakeup1] at hfold
  unfold State.exit
  simp only
  obtain ⟨t, ht⟩ : ∃ t, t = (finRange NPROC).foldl (State.adopt p)
    (s.wakeup1 ((s.procs p).parent.map .proc)) := ⟨_, rfl⟩
  rw [← ht] at hfold ⊢
  refine turn_of_update (j := p) (x := { s.card p with life := .zombie }) ?_ ?_
  · refine State.card_setProc.trans ?_
    rw [hfold.1, ← congrFun hfold.1 p]
    rfl
  · intro hnew
    exact .exit hcpu (h.life_of_on hcpu) hnew

theorem turn_wait (h : Table s) (hcpu : (s.cpus c).proc = some p) (hpc : (s.procs p).pc = .waitScan)
    {ok : Bool} : Turn s (s.wait c p) i (.step c ok) := by
  unfold State.wait
  simp only
  split
  · rename_i z hfind
    have hz := find?_some hfind
    simp only [Bool.and_eq_true, decide_eq_true_eq] at hz
    refine turn_of_update (j := z) (x := ⟨.unused, 0, false⟩) ?_ ?_
    · exact State.card_setPc.trans State.card_setProc
    · intro hnew
      refine .reap hcpu hpc hz.1 ?_ hnew ?_
      · simp [State.card, Proc.card, hz.2, ProcState.life]
      · exact congrArg Proc.pc State.setProc_self
  · rename_i hfind
    split_ifs
    · exact .keep (congrFun State.card_setPc i)
    · exact .keep (congrFun (card_park h hcpu rfl) i)

omit [DecidableEq C] in
theorem turn_kill {pid : BitVec 32} : Turn s (s.kill p pid) i (.call c (.kill pid)) := by
  unfold State.kill
  split
  · exact .keep (congrFun State.card_setPc i)
  · rename_i j hfind
    have hj : (s.procs j).pid = pid := by simpa using find?_some hfind
    refine turn_of_update (j := j) (x := { s.card j with killed := true }) ?_ ?_
    · refine State.card_setPc.trans (State.card_setProc.trans ?_)
      congr 1
      simp only [State.card, Proc.card]
      split_ifs with hs <;> simp [hs, ProcState.life]
    · exact fun hnew => .kill hj hnew

theorem turn_of_moves (h : Table s) (hmove : Moves s a s') : Turn s s' i a := by
  cases hmove with
  | acquire | skip | loop => exact .keep rfl
  | dispatch hcpu hstate =>
    refine .keep (congrFun (State.card_setProc_eq ?_) i)
    simp [State.card, Proc.card, hstate, ProcState.life]
  | yield hcpu | sleep hcpu => exact .keep (congrFun (card_park h hcpu rfl) i)
  | fork => exact turn_allocproc
  | exit hcpu => exact turn_exit h hcpu
  | kill => exact turn_kill
  | stack => exact .keep (congrFun (State.card_setPc.trans State.card_setPc) i)
  | noStack hcpu hpc => exact turn_unfork h hcpu (Or.inl hpc)
  | copy =>
    refine .keep (congrFun (State.card_setPc.trans (State.card_setProc_eq ?_)) i)
    rfl
  | noCopy hcpu hpc => exact turn_unfork h hcpu (Or.inr hpc)
  | ready hcpu hpc =>
    rename_i ok p np
    have howned : s.owned p = some (np, true) := by simp [State.owned, hpc, Pc.owns]
    refine turn_of_update (j := np) (x := { s.card np with life := .live }) ?_ ?_
    · exact State.card_setPc.trans State.card_setProc
    · exact fun hnew => .ready (h.family.owner _ _ _ howned).1 hnew
  | scan hcpu hpc => exact turn_wait h hcpu hpc
  | waiting | sleeping =>
    refine .keep (congrFun (State.card_setProc_eq ?_) i)
    rfl
  | wait | ret | yielding | forkret => exact .keep (congrFun State.card_setPc i)
  | wakeup => exact .keep (congrFun State.card_wakeup1 i)

/-- The calls of `allocproc` in a run, without the one of `userinit`. -/
def forks (tr : List (State C × Action C)) : Nat :=
  tr.countP fun x =>
    match x.2 with
    | .call _ .fork => true
    | _ => false

theorem nextpid_of_moves (hfork : ∀ c, a ≠ .call c .fork) (hmove : Moves s a s') :
    s'.nextpid = s.nextpid := by
  cases hmove with
  | fork => exact absurd rfl (hfork _)
  | @exit c p =>
    have hfold := State.card_adopts (p := p) (finRange NPROC)
      (s.wakeup1 ((s.procs p).parent.map .proc))
    unfold State.exit
    simp only
    generalize (finRange NPROC).foldl (State.adopt p) _ = t at hfold ⊢
    exact hfold.2
  | kill =>
    unfold State.kill
    split <;> rfl
  | scan =>
    unfold State.wait
    simp only
    split
    · rfl
    · split_ifs <;> rfl
  | _ => rfl

omit [DecidableEq C] in
theorem pids_allocproc (h : Pids s.used s.pids s.nextpid) (hnext : s.nextpid.toNat + 1 < 2 ^ 32) :
    Pids (s.allocproc p).used (s.allocproc p).pids (s.allocproc p).nextpid ∧
    (s.allocproc p).nextpid.toNat ≤ s.nextpid.toNat + 1 := by
  have hpc : ∀ (t : State C) pc, (t.setPc p pc).used = t.used ∧ (t.setPc p pc).pids = t.pids := by
    intro t pc
    unfold State.setPc
    rw [State.used_setProc, State.pids_setProc]
    exact ⟨update_eq_self p t.used, update_eq_self p t.pids⟩
  unfold State.allocproc
  split
  · rw [(hpc _ _).1, (hpc _ _).2]
    exact ⟨h, Nat.le_succ _⟩
  · rename_i np hfind
    simp only
    obtain ⟨t, ht⟩ : ∃ t, t = s.setProc np
      { s.procs np with state := .embryo, pid := s.nextpid } := ⟨_, rfl⟩
    rw [← ht]
    change Pids (t.setPc p (.forkStack np)).used (t.setPc p (.forkStack np)).pids _ ∧ _
    rw [(hpc _ _).1, (hpc _ _).2, ht, State.used_setProc, State.pids_setProc]
    refine ⟨h.alloc hnext, ?_⟩
    rw [BitVec.toNat_add]
    exact Nat.mod_le _ _

theorem pids_of_moves (h : Table s) (hpids : Pids s.used s.pids s.nextpid)
    (hfork : ∀ c, a ≠ .call c .fork) (hmove : Moves s a s') : Pids s'.used s'.pids s'.nextpid := by
  rw [nextpid_of_moves hfork hmove]
  apply hpids.mono
  intro i hi
  rw [State.used_eq] at hi ⊢
  change _ ∧ (s'.card i).pid = (s.card i).pid
  cases turn_of_moves (i := i) h hmove with
  | alloc => exact absurd rfl (hfork _)
  | keep hnew | kill _ hnew =>
    rw [hnew] at hi ⊢
    exact ⟨hi, rfl⟩
  | unfork _ _ _ hnew | reap _ _ _ _ hnew => simp [hnew] at hi
  | ready hold hnew | exit _ hold hnew => simp [hnew, hold]

omit [DecidableEq C] in
theorem pids_init : Pids (init : State C).used (init : State C).pids (init : State C).nextpid := by
  have hused : ∀ i, (init : State C).used i = true → i = 0 := by
    intro i hi
    by_contra hne
    simp [State.used, init, hne] at hi
  refine ⟨?_, ?_, by simp [init], ?_⟩
  · intro i hi
    rw [hused i hi]
    simp [State.pids, init]
  · intro i hi
    rw [hused i hi]
    simp [State.pids, init]
  · intro i j hi hj _
    rw [hused i hi, hused j hj]

theorem pids_of_trace {tr : List (State C × Action C)} (htr : Trace step init tr s)
    (hcalls : forks tr + 1 < 2 ^ 31) :
    Pids s.used s.pids s.nextpid ∧ s.nextpid.toNat ≤ forks tr + 2 := by
  revert hcalls
  induction htr with
  | nil => exact fun _ => ⟨pids_init, by simp [init]⟩
  | @cons tr s s' a htr hstep ih =>
    intro hcalls
    have hmove := moves_of_step hstep
    by_cases hfork : ∃ c, a = .call c .fork
    · obtain ⟨c, rfl⟩ := hfork
      have hforks : forks ((s, .call c .fork) :: tr) = forks tr + 1 := by
        unfold forks
        rw [countP_cons]
        rfl
      rw [hforks] at hcalls ⊢
      obtain ⟨hpids, hle⟩ := ih (by omega)
      cases hmove with
      | fork hcpu hpc =>
        obtain ⟨hpids', hle'⟩ := pids_allocproc hpids (by omega)
        exact ⟨hpids', by omega⟩
    · have hfork' : ∀ c, a ≠ .call c .fork := fun c hc => hfork ⟨c, hc⟩
      have hforks : forks ((s, a) :: tr) = forks tr := by
        unfold forks
        rw [countP_cons_of_neg]
        split
        · rename_i c heq
          exact absurd heq (hfork' c)
        · simp
      rw [hforks] at hcalls ⊢
      obtain ⟨hpids, hle⟩ := ih hcalls
      refine ⟨pids_of_moves (table_of_trace htr) hpids hfork' hmove, ?_⟩
      rw [nextpid_of_moves hfork' hmove]
      exact hle

end Steps

end Xv6.Ptable
