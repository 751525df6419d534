import Xv6.Ptable.Code

/-!
# The invariants of the process table

Each invariant is stated over the part of the table it is about, as functions on slots:
who runs where, who is whose parent, which pids are in use, who sleeps in `wait`.  Every
step of the code is an update of these functions at one or two slots.
-/

namespace Xv6.Ptable

open Lib
open Function (update update_apply update_eq_self update_of_ne update_self)

/-- What a slot is, without the difference between the states of a live process. -/
inductive Life where
  | unused
  | embryo
  | live
  | zombie
  deriving DecidableEq

def ProcState.life : ProcState → Life
  | .unused => .unused
  | .embryo => .embryo
  | .zombie => .zombie
  | _ => .live

/-- The slot that a process in `fork` is setting up, and whether its parent is set. -/
def Pc.owns : Pc → Option (Slot × Bool)
  | .forkStack np => some (np, false)
  | .forkCopy np => some (np, false)
  | .forkReady np => some (np, true)
  | .yielding pc => pc.owns
  | _ => none

section OnCpu

variable {C : Type} [DecidableEq C] {run : Slot → Bool} {on : C → Option Slot} {c : C} {p : Slot}
  {chan : Option Chan}

structure OnCpu (run : Slot → Bool) (on : C → Option Slot) : Prop where
  running : ∀ i, run i = true ↔ ∃ c, on c = some i
  inj : ∀ c d i, on c = some i → on d = some i → c = d

theorem OnCpu.dispatch (h : OnCpu run on) (hrun : run p = false) (hon : on c = none) :
    OnCpu (update run p true) (update on c (some p)) := by
  have hfree : ∀ d, on d ≠ some p := by
    intro d hd
    have hp := (h.running p).mpr ⟨d, hd⟩
    rw [hrun] at hp
    cases hp
  refine ⟨?_, ?_⟩
  · intro i
    by_cases hi : i = p
    · subst hi
      simp only [update_self, true_iff]
      exact ⟨c, update_self c _ on⟩
    · rw [update_of_ne hi, h.running i]
      constructor
      · rintro ⟨d, hd⟩
        refine ⟨d, ?_⟩
        rw [update_of_ne]
        · exact hd
        · rintro rfl
          rw [hon] at hd
          cases hd
      · rintro ⟨d, hd⟩
        by_cases hdc : d = c
        · subst hdc
          rw [update_self] at hd
          cases hd
          exact absurd rfl hi
        · rw [update_of_ne hdc] at hd
          exact ⟨d, hd⟩
  · intro d e i hd he
    simp only [update_apply] at hd he
    split_ifs at hd he with hdc hec hec
    · rw [hdc, hec]
    · cases hd
      exact absurd he (hfree e)
    · cases he
      exact absurd hd (hfree d)
    · exact h.inj d e i hd he

theorem OnCpu.park (h : OnCpu run on) (hon : on c = some p) :
    OnCpu (update run p false) (update on c none) := by
  refine ⟨?_, ?_⟩
  · intro i
    by_cases hi : i = p
    · subst hi
      simp only [update_self, Bool.false_eq_true, false_iff, not_exists]
      intro d hd
      simp only [update_apply] at hd
      split_ifs at hd with hdc
      exact hdc (h.inj d c i hd hon)
    · rw [update_of_ne hi, h.running i]
      constructor
      · rintro ⟨d, hd⟩
        refine ⟨d, ?_⟩
        rw [update_of_ne]
        · exact hd
        · rintro rfl
          rw [hon] at hd
          cases hd
          exact hi rfl
      · rintro ⟨d, hd⟩
        simp only [update_apply] at hd
        split_ifs at hd
        exact ⟨d, hd⟩
  · intro d e i hd he
    simp only [update_apply] at hd he
    split_ifs at hd he
    exact h.inj d e i hd he

end OnCpu

section Family

variable {life : Slot → Life} {parent : Slot → Option Slot}
  {owns : Slot → Option (Slot × Bool)} {init p np i : Slot}

/-- Every process but init has a live parent; a slot that is being set up has one live
process that does it, and its parent is that process or none. -/
structure Family (life : Slot → Life) (parent : Slot → Option Slot)
    (owns : Slot → Option (Slot × Bool)) (init : Slot) : Prop where
  hasParent : ∀ i, life i = .live ∨ life i = .zombie → i ≠ init →
    ∃ j, parent i = some j ∧ life j = .live
  initLive : life init = .live
  root : parent init = none
  irrefl : ∀ i, parent i ≠ some i
  unused : ∀ i, life i = .unused → parent i = none
  owner : ∀ j i r, owns j = some (i, r) →
    life i = .embryo ∧ life j = .live ∧ parent i = if r then some j else none
  owner_inj : ∀ j k i r r', owns j = some (i, r) → owns k = some (i, r') → j = k

namespace Family

variable (h : Family life parent owns init)

include h

theorem owner_ne {r : Bool} (hp : owns p = some (np, r)) : np ≠ p := by
  rintro rfl
  obtain ⟨he, hl, -⟩ := h.owner _ _ _ hp
  rw [he] at hl
  cases hl

/-- A step that changes the state and the parent of slot `i`, and what `p` is setting up. -/
theorem put {x : Life} {y : Option Slot}
    {o : Option (Slot × Bool)} (hinit : i = init → x = .live ∧ y = none) (hirrefl : y ≠ some i)
    (hunused : x = .unused → y = none)
    (hparent : x = .live ∨ x = .zombie → i ≠ init → ∃ j, y = some j ∧ life j = .live)
    (hkids : x ≠ .live → life i = .live → ∀ j, parent j ≠ some i)
    (hothers : ∀ j ≠ p, ∀ k r, owns j = some (k, r) → k ≠ i ∧ (j = i → x = .live))
    (howner : ∀ k r, o = some (k, r) → (if k = i then x else life k) = .embryo ∧
      (if p = i then x else life p) = .live ∧
      (if k = i then y else parent k) = (if r then some p else none) ∧
      ∀ j ≠ p, ∀ r', owns j ≠ some (k, r')) :
    Family (update life i x) (update parent i y) (update owns p o) init := by
  have hlive : ∀ j k, parent j = some k → life k = .live → update life i x k = .live := by
    intro j k hpar hk
    rw [update_apply]
    split_ifs with hki
    · subst hki
      by_contra hx
      exact hkids hx hk j hpar
    · exact hk
  refine ⟨?_, ?_, ?_, ?_, ?_, ?_, ?_⟩
  · intro j hj hne
    by_cases hji : j = i
    · subst hji
      rw [update_self] at hj
      obtain ⟨k, rfl, hk⟩ := hparent hj hne
      refine ⟨k, update_self .., ?_⟩
      rw [update_of_ne (by rintro rfl; exact hirrefl rfl)]
      exact hk
    · rw [update_of_ne hji] at hj ⊢
      obtain ⟨k, hpar, hk⟩ := h.hasParent j hj hne
      exact ⟨k, hpar, hlive j k hpar hk⟩
  · rw [update_apply]
    split_ifs with hi
    · exact (hinit hi.symm).1
    · exact h.initLive
  · rw [update_apply]
    split_ifs with hi
    · exact (hinit hi.symm).2
    · exact h.root
  · intro j
    rw [update_apply]
    split_ifs with hji
    · rw [hji]
      exact hirrefl
    · exact h.irrefl j
  · intro j hj
    rw [update_apply] at hj ⊢
    split_ifs at hj ⊢
    · exact hunused hj
    · exact h.unused j hj
  · intro j k r hj
    simp only [update_apply] at hj ⊢
    split_ifs at hj with hjp
    · obtain ⟨he, hl, hpar, -⟩ := howner k r hj
      rw [hjp]
      exact ⟨he, hl, hpar⟩
    · obtain ⟨he, hl, hpar⟩ := h.owner j k r hj
      obtain ⟨hk, hji⟩ := hothers j hjp k r hj
      rw [if_neg hk, if_neg hk]
      refine ⟨he, ?_, hpar⟩
      split_ifs with heq
      · exact hji heq
      · exact hl
  · intro j k l r r' hj hk
    simp only [update_apply] at hj hk
    split_ifs at hj hk with hjp hkp hkp
    · rw [hjp, hkp]
    · exact absurd hk ((howner l r hj).2.2.2 k hkp r')
    · exact absurd hj ((howner l r' hk).2.2.2 j hjp r)
    · exact h.owner_inj j k l r r' hj hk

theorem owner_of_ne {j : Slot} {r r' : Bool}
    (hp : owns p = some (np, r)) (hj : j ≠ p) : owns j ≠ some (np, r') :=
  fun hcon => hj (h.owner_inj j p np r' r hcon hp)

theorem alloc (hlive : life p = .live)
    (hnp : life np = .unused) : Family (update life np .embryo) parent
      (update owns p (some (np, false))) init := by
  have hne : ∀ j, life j ≠ .unused → j ≠ np := by
    rintro j hj rfl
    exact hj hnp
  have hpar := h.unused np hnp
  have hnew : ∀ j r, owns j ≠ some (np, r) := by
    intro j r hj
    exact hne np (by simp [(h.owner j np r hj).1]) rfl
  rw [← update_eq_self np parent]
  refine h.put (fun hi => absurd hi.symm (hne init (by simp [h.initLive]))) (h.irrefl np)
    (by simp) (by simp) (by simp [hnp]) (fun j _ k r hj => ⟨?_, ?_⟩) ?_
  · rintro rfl
    exact hnew j r hj
  · intro hjn
    exact absurd hjn (hne j (by simp [(h.owner j k r hj).2.1]))
  · intro k r hk
    cases hk
    simp [hlive, hpar, hne p (by simp [hlive]), hnew]

theorem setParent (hp : owns p = some (np, false)) : Family life (update parent np (some p))
      (update owns p (some (np, true))) init := by
  obtain ⟨he, hl, -⟩ := h.owner _ _ _ hp
  have hne := h.owner_ne hp
  rw [← update_eq_self np life]
  refine h.put ?_ (by simpa using hne.symm) (by simp [he]) (by simp [he]) (by simp [he])
    (fun j hj k r hk => ⟨?_, ?_⟩) ?_
  · rintro rfl
    simp [h.initLive] at he
  · rintro rfl
    exact h.owner_of_ne hp hj hk
  · rintro rfl
    exact (h.owner j k r hk).2.1
  · intro k r hk
    cases hk
    simp only [if_true, he, if_neg hne.symm, hl, true_and]
    exact fun j hj r => h.owner_of_ne hp hj

theorem unfork (hp : owns p = some (np, false)) :
    Family (update life np .unused) parent (update owns p none) init := by
  obtain ⟨he, -, hpar⟩ := h.owner _ _ _ hp
  rw [← update_eq_self np parent]
  refine h.put ?_ (h.irrefl np) (fun _ => hpar) (by simp) (by simp [he])
    (fun j hj k r hk => ⟨?_, ?_⟩) (by simp)
  · rintro rfl
    simp [h.initLive] at he
  · rintro rfl
    exact h.owner_of_ne hp hj hk
  · rintro rfl
    simp [(h.owner j k r hk).2.1] at he

theorem ready (hp : owns p = some (np, true)) :
    Family (update life np .live) parent (update owns p none) init := by
  obtain ⟨he, hl, hpar⟩ := h.owner _ _ _ hp
  rw [← update_eq_self np parent]
  refine h.put ?_ (h.irrefl np) (by simp) (fun _ _ => ⟨p, hpar, hl⟩) (by simp)
    (fun j hj k r hk => ⟨?_, fun _ => rfl⟩) (by simp)
  · rintro rfl
    simp [h.initLive] at he
  · rintro rfl
    exact h.owner_of_ne hp hj hk

theorem adopt (hp : owns p = none) (hi : parent i = some p) :
    Family life (update parent i (some init)) owns init := by
  have hroot : i ≠ init := by
    rintro rfl
    rw [h.root] at hi
    cases hi
  rw [← update_eq_self i life, ← update_eq_self p owns]
  refine h.put (fun heq => absurd heq hroot) (by simpa using hroot.symm) ?_
    (fun _ _ => ⟨init, rfl, h.initLive⟩) (fun hx hl => absurd hl hx)
    (fun j hj k r hk => ⟨?_, ?_⟩) (by simp [hp])
  · intro hx
    rw [h.unused i hx] at hi
    cases hi
  · -- a slot that `p` is setting up would be owned by `p`
    rintro rfl
    have hpar := (h.owner j k r hk).2.2
    rw [hi] at hpar
    split_ifs at hpar
    exact hj (Option.some.inj hpar).symm
  · rintro rfl
    exact (h.owner j k r hk).2.1

theorem exit (hlive : life p = .live) (hinit : p ≠ init)
    (hp : owns p = none) (hkids : ∀ i, parent i ≠ some p) :
    Family (update life p .zombie) parent owns init := by
  rw [← update_eq_self p parent, ← update_eq_self p owns]
  refine h.put (fun heq => absurd heq hinit) (h.irrefl p) (by simp)
    (fun _ hne => h.hasParent p (.inl hlive) hne) (fun _ _ => hkids)
    (fun j hj k r hk => ⟨?_, fun hjp => absurd hjp hj⟩) (by simp [hp])
  rintro rfl
  simp [(h.owner j k r hk).1] at hlive

theorem reap (hi : life i = .zombie) :
    Family (update life i .unused) (update parent i none) owns init := by
  have howns : owns i = none := by
    by_contra hne
    obtain ⟨⟨k, r⟩, hk⟩ := Option.ne_none_iff_exists'.mp hne
    simp [(h.owner i k r hk).2.1] at hi
  rw [← update_eq_self i owns]
  refine h.put ?_ (by simp) (fun _ => rfl) (by simp) (by simp [hi])
    (fun j hj k r hk => ⟨?_, fun hji => absurd hji hj⟩) (by simp [howns])
  · rintro rfl
    simp [h.initLive] at hi
  · rintro rfl
    simp [(h.owner j k r hk).1] at hi

end Family

end Family

section Pids

variable {used : Slot → Bool} {pid : Slot → BitVec 32} {next : BitVec 32} {np : Slot}

/-- The pids of the slots in use are different, and `nextpid` is still larger. -/
structure Pids (used : Slot → Bool) (pid : Slot → BitVec 32) (next : BitVec 32) : Prop where
  range : ∀ i, used i = true → (pid i).toNat < next.toNat
  pos : ∀ i, used i = true → 0 < (pid i).toNat
  next_pos : 0 < next.toNat
  inj : ∀ i j, used i = true → used j = true → pid i = pid j → i = j

theorem Pids.mono (h : Pids used pid next) {used' : Slot → Bool} {pid' : Slot → BitVec 32}
    (hle : ∀ i, used' i = true → used i = true ∧ pid' i = pid i) : Pids used' pid' next where
  range := fun i hi => by rw [(hle i hi).2]; exact h.range i (hle i hi).1
  pos := fun i hi => by rw [(hle i hi).2]; exact h.pos i (hle i hi).1
  next_pos := h.next_pos
  inj := fun i j hi hj heq => by
    rw [(hle i hi).2, (hle j hj).2] at heq
    exact h.inj i j (hle i hi).1 (hle j hj).1 heq

theorem Pids.alloc (h : Pids used pid next) (hlt : next.toNat + 1 < 2 ^ 32) :
    Pids (update used np true) (update pid np next) (next + 1) := by
  have hnext : (next + 1).toNat = next.toNat + 1 := by
    rw [BitVec.toNat_add]
    exact Nat.mod_eq_of_lt hlt
  have hold : ∀ i, i ≠ np → update used np true i = true → used i = true := by
    intro i hi hused
    rwa [update_of_ne hi] at hused
  refine ⟨?_, ?_, by omega, ?_⟩
  · intro i hi
    by_cases hin : i = np
    · subst hin
      rw [update_self]
      omega
    · rw [update_of_ne hin]
      have := h.range i (hold i hin hi)
      omega
  · intro i hi
    by_cases hin : i = np
    · subst hin
      rw [update_self]
      exact h.next_pos
    · rw [update_of_ne hin]
      exact h.pos i (hold i hin hi)
  · intro i j hi hj heq
    by_cases hin : i = np
    · by_cases hjn : j = np
      · rw [hin, hjn]
      · rw [hin, update_self, update_of_ne hjn] at heq
        have := h.range j (hold j hjn hj)
        rw [← heq] at this
        omega
    · by_cases hjn : j = np
      · rw [hjn, update_self, update_of_ne hin] at heq
        have := h.range i (hold i hin hi)
        rw [heq] at this
        omega
      · rw [update_of_ne hin, update_of_ne hjn] at heq
        exact h.inj i j (hold i hin hi) (hold j hjn hj) heq

end Pids

section Table

variable {C : Type}

namespace State

variable (s : State C)

def runs : Slot → Bool := fun i => (s.procs i).state = .running
def on : C → Option Slot := fun c => (s.cpus c).proc
def life : Slot → Life := fun i => (s.procs i).state.life
def parents : Slot → Option Slot := fun i => (s.procs i).parent
def owned : Slot → Option (Slot × Bool) := fun i => (s.procs i).pc.owns
def used : Slot → Bool := fun i => (s.procs i).state ≠ .unused
def pids : Slot → BitVec 32 := fun i => (s.procs i).pid

def Dozes (i : Slot) : Prop := (s.procs i).state = .sleeping ∧ (s.procs i).chan = some (.proc i)

/-- `z` is a zombie child of `i`. -/
def ZombieOf (z i : Slot) : Prop := (s.procs z).state = .zombie ∧ (s.procs z).parent = some i

variable {s} {i : Slot} {x : Proc}

theorem setProc_self : (s.setProc i x).procs i = x := update_self ..

theorem setProc_of_ne {j : Slot} (hj : j ≠ i) : (s.setProc i x).procs j = s.procs j :=
  update_of_ne hj _ _

theorem map_setProc {β : Type} (f : Proc → β) :
    (fun j => f ((s.setProc i x).procs j)) = update (fun j => f (s.procs j)) i (f x) := by
  funext j
  by_cases hj : j = i
  · subst hj
    rw [setProc_self, update_self]
  · rw [setProc_of_ne hj, update_of_ne hj]

theorem runs_setProc : (s.setProc i x).runs = update s.runs i (x.state = .running) :=
  map_setProc fun x => decide (x.state = .running)

theorem life_setProc : (s.setProc i x).life = update s.life i x.state.life :=
  map_setProc fun x => x.state.life

theorem parents_setProc : (s.setProc i x).parents = update s.parents i x.parent :=
  map_setProc Proc.parent

theorem owned_setProc : (s.setProc i x).owned = update s.owned i x.pc.owns :=
  map_setProc fun x => x.pc.owns

theorem used_setProc : (s.setProc i x).used = update s.used i (x.state ≠ .unused) :=
  map_setProc fun x => decide (x.state ≠ .unused)

theorem pids_setProc : (s.setProc i x).pids = update s.pids i x.pid :=
  map_setProc Proc.pid

theorem map_wakeup1 {β : Type} (f : Proc → β)
    (hf : ∀ y : Proc, y.state = .sleeping → f { y with state := .runnable } = f y) :
    (fun j => f ((s.wakeup1 chan).procs j)) = fun j => f (s.procs j) := by
  funext j
  simp only [wakeup1]
  split_ifs with hj
  · exact hf _ hj.1
  · rfl

section Wakeup

variable {chan : Option Chan}

theorem runs_wakeup1 : (s.wakeup1 chan).runs = s.runs :=
  map_wakeup1 (fun x => decide (x.state = .running)) fun y hy => by simp [hy]

theorem life_wakeup1 : (s.wakeup1 chan).life = s.life :=
  map_wakeup1 (fun x => x.state.life) fun y hy => by simp [hy, ProcState.life]

theorem parents_wakeup1 : (s.wakeup1 chan).parents = s.parents :=
  map_wakeup1 Proc.parent fun _ _ => rfl

theorem owned_wakeup1 : (s.wakeup1 chan).owned = s.owned :=
  map_wakeup1 (fun x => x.pc.owns) fun _ _ => rfl

end Wakeup

end State

structure Table (s : State C) : Prop where
  cpus : OnCpu s.runs s.on
  family : Family s.life s.parents s.owned s.initproc
  asleep : ∀ i z, s.Dozes i → ¬ s.ZombieOf z i

namespace Table

variable {s : State C} {c : C} {p i : Slot} {x : Proc}

theorem state_of_on (h : Table s) (hcpu : (s.cpus c).proc = some p) :
    (s.procs p).state = .running := by
  have hrun := (h.cpus.running p).mpr ⟨c, hcpu⟩
  simpa [State.runs] using hrun

theorem life_of_on (h : Table s) (hcpu : (s.cpus c).proc = some p) : s.life p = .live := by
  simp [State.life, h.state_of_on hcpu, ProcState.life]

theorem family_setProc {life : Life} {parent : Option Slot} {owns : Option (Slot × Bool)}
    (hfam : Family (update s.life i life) (update s.parents i parent)
      (update s.owned i owns) s.initproc)
    (hlife : x.state.life = life) (hparent : x.parent = parent) (howns : x.pc.owns = owns) :
    Family (s.setProc i x).life (s.setProc i x).parents (s.setProc i x).owned s.initproc := by
  rw [State.life_setProc, State.parents_setProc, State.owned_setProc, hlife, hparent, howns]
  exact hfam

theorem asleep_setProc (h : Table s)
    (hself : x.state = .sleeping → x.chan = some (.proc i) → ∀ z, ¬ s.ZombieOf z i)
    (hzombie : x.state = .zombie → ∀ j, x.parent = some j → ¬ s.Dozes j) (j z : Slot)
    (hj : (s.setProc i x).Dozes j) : ¬ (s.setProc i x).ZombieOf z j := by
  rintro ⟨hz, hpar⟩
  obtain ⟨hsleep, hchan⟩ := hj
  by_cases hji : j = i <;> by_cases hzi : z = i
  · subst hji hzi
    rw [hsleep] at hz
    cases hz
  · subst hji
    rw [State.setProc_self] at hsleep hchan
    rw [State.setProc_of_ne hzi] at hz hpar
    exact hself hsleep hchan z ⟨hz, hpar⟩
  · subst hzi
    rw [State.setProc_of_ne hji] at hsleep hchan
    rw [State.setProc_self] at hz hpar
    exact hzombie hz j hpar ⟨hsleep, hchan⟩
  · rw [State.setProc_of_ne hji] at hsleep hchan
    rw [State.setProc_of_ne hzi] at hz hpar
    exact h.asleep j z ⟨hsleep, hchan⟩ ⟨hz, hpar⟩

theorem setProc (h : Table s) (hrun : x.state = .running ↔ (s.procs i).state = .running)
    (hlife : x.state.life = s.life i) (hparent : x.parent = s.parents i)
    (howns : x.pc.owns = s.owned i)
    (hdoze : x.state = .sleeping → x.chan = some (.proc i) → s.Dozes i) :
    Table (s.setProc i x) := by
  refine ⟨?_, ?_, h.asleep_setProc (fun hs hc z => h.asleep i z (hdoze hs hc))
    fun hx j hpar hj => ?_⟩
  · have hsame : (s.setProc i x).runs = s.runs := by
      rw [State.runs_setProc, ← update_eq_self i s.runs]
      simp [State.runs, hrun]
    rw [hsame]
    exact h.cpus
  · apply family_setProc _ hlife hparent howns
    simp only [update_eq_self]
    exact h.family
  · have hl : x.state.life = (s.procs i).state.life := hlife
    rw [hx] at hl
    refine h.asleep j i hj ⟨?_, hparent.symm.trans hpar⟩
    cases hs : (s.procs i).state <;> simp_all [ProcState.life]

theorem congr {t : State C} (h : Table s) (hruns : t.runs = s.runs) (hon : t.on = s.on)
    (hlife : t.life = s.life) (hparents : t.parents = s.parents) (howned : t.owned = s.owned)
    (hinit : t.initproc = s.initproc) (hdoze : ∀ i, t.Dozes i → s.Dozes i)
    (hzombie : ∀ z i, t.ZombieOf z i → s.ZombieOf z i) : Table t where
  cpus := by
    rw [hruns, hon]
    exact h.cpus
  family := by
    rw [hlife, hparents, howned, hinit]
    exact h.family
  asleep := fun i z hi hz => h.asleep i z (hdoze i hi) (hzombie z i hz)

theorem zombieOf_of_wakeup1 {z : Slot} (hz : (s.wakeup1 chan).ZombieOf z i) : s.ZombieOf z i := by
  obtain ⟨hstate, hparent⟩ := hz
  simp only [State.wakeup1] at hstate hparent
  split_ifs at hstate hparent
  exact ⟨hstate, hparent⟩

theorem not_dozes_wakeup1 (s : State C) (i : Slot) : ¬ (s.wakeup1 (some (.proc i))).Dozes i := by
  rintro ⟨hstate, hchan⟩
  simp only [State.wakeup1] at hstate hchan
  split_ifs at hstate hchan with hi
  exact hi ⟨hstate, hchan⟩

theorem dozes_of_wakeup1 (hi : (s.wakeup1 chan).Dozes i) : s.Dozes i := by
  obtain ⟨hstate, hchan⟩ := hi
  simp only [State.wakeup1] at hstate hchan
  split_ifs at hstate hchan
  exact ⟨hstate, hchan⟩

theorem wakeup1 (h : Table s) (chan : Option Chan) : Table (s.wakeup1 chan) :=
  h.congr State.runs_wakeup1 rfl State.life_wakeup1 State.parents_wakeup1 State.owned_wakeup1
    rfl (fun _ => dozes_of_wakeup1) fun _ _ => zombieOf_of_wakeup1

theorem pair (h : Table s) {t : State C} {np : Slot} {pc : Pc} (hne : np ≠ p)
    (ht : t.procs = ((s.setProc np x).setPc p pc).procs) (hcpus : t.cpus = s.cpus)
    (hinit : t.initproc = s.initproc)
    (hrun : x.state ≠ .running ∧ (s.procs np).state ≠ .running)
    (hsleep : x.state ≠ .sleeping) (hzombie : x.state ≠ .zombie)
    (hfam : Family (update s.life np x.state.life) (update s.parents np x.parent)
      (update (update s.owned np x.pc.owns) p pc.owns) s.initproc) : Table t := by
  have hp : t.procs p = { s.procs p with pc := pc } := by
    rw [ht]
    simp only [State.setPc, State.setProc_self, State.setProc_of_ne (Ne.symm hne)]
  have hnp : t.procs np = x := by
    rw [ht]
    simp only [State.setPc, State.setProc_of_ne hne, State.setProc_self]
  have hother : ∀ j, j ≠ p → j ≠ np → t.procs j = s.procs j := by
    intro j hj hj'
    rw [ht]
    simp only [State.setPc, State.setProc_of_ne hj, State.setProc_of_ne hj']
  -- a field that `p` keeps
  have hfield : ∀ {β : Type} (f : Proc → β), (∀ y, f { y with pc := pc } = f y) →
      (fun j => f (t.procs j)) = update (fun j => f (s.procs j)) np (f x) := by
    intro β f hf
    funext j
    by_cases hj : j = p
    · subst hj
      rw [hp, hf, update_of_ne (Ne.symm hne)]
    · by_cases hj' : j = np
      · subst hj'
        rw [hnp, update_self]
      · rw [hother j hj hj', update_of_ne hj']
  have hruns : t.runs = s.runs := by
    have heq := hfield (fun y => decide (y.state = .running)) fun _ => rfl
    change t.runs = update s.runs np _ at heq
    rw [heq, ← update_eq_self np s.runs]
    simp [State.runs, hrun]
  have howned : t.owned = update (update s.owned np x.pc.owns) p pc.owns := by
    funext j
    by_cases hj : j = p
    · subst hj
      simp [State.owned, hp]
    · by_cases hj' : j = np
      · subst hj'
        simp [State.owned, hnp, hj]
      · simp [State.owned, hother j hj hj', hj, hj']
  refine ⟨?_, ?_, ?_⟩
  · have hon : t.on = s.on := by
      unfold State.on
      rw [hcpus]
    rw [hruns, hon]
    exact h.cpus
  · have hl : t.life = _ := hfield (fun y => y.state.life) fun _ => rfl
    have hpar : t.parents = _ := hfield Proc.parent fun _ => rfl
    rw [hl, hpar, howned, hinit]
    exact hfam
  · have hsame : ∀ j, (t.procs j).state = ((s.setProc np x).procs j).state ∧
        (t.procs j).chan = ((s.setProc np x).procs j).chan ∧
        (t.procs j).parent = ((s.setProc np x).procs j).parent := by
      intro j
      rw [ht]
      by_cases hj : j = p
      · subst hj
        simp [State.setPc, State.setProc_self]
      · simp [State.setPc, State.setProc_of_ne hj]
    rintro j z ⟨hj, hchan⟩ ⟨hz, hpar⟩
    rw [(hsame j).1] at hj
    rw [(hsame j).2.1] at hchan
    rw [(hsame z).1] at hz
    rw [(hsame z).2.2] at hpar
    exact h.asleep_setProc (fun hx => absurd hx hsleep) (fun hx => absurd hx hzombie) j z
      ⟨hj, hchan⟩ ⟨hz, hpar⟩

theorem owned_eq_none (h : Table s) (hi : s.life i ≠ .live) : s.owned i = none := by
  by_contra hne
  obtain ⟨⟨j, r⟩, hj⟩ := Option.ne_none_iff_exists'.mp hne
  exact hi (h.family.owner i j r hj).2.1

theorem setPc (h : Table s) {pc : Pc} (howns : pc.owns = s.owned p) : Table (s.setPc p pc) :=
  h.setProc Iff.rfl rfl rfl howns fun h1 h2 => ⟨h1, h2⟩

theorem setLock (h : Table s) (lock : Option C) : Table { s with lock := lock } :=
  ⟨h.cpus, h.family, h.asleep⟩

variable [DecidableEq C]

/-- A process gives up its processor. -/
theorem leave (h : Table s) (hcpu : (s.cpus c).proc = some p) (hrun : x.state ≠ .running)
    (hfam : Family (s.setProc p x).life (s.setProc p x).parents (s.setProc p x).owned s.initproc)
    (hasleep : ∀ j z, (s.setProc p x).Dozes j → ¬ (s.setProc p x).ZombieOf z j) :
    Table ((s.setProc p x).sched c p) := by
  refine ⟨?_, hfam, hasleep⟩
  have hruns : ((s.setProc p x).sched c p).runs = update s.runs p false := by
    change (s.setProc p x).runs = _
    rw [State.runs_setProc]
    simp [hrun]
  have hon : ((s.setProc p x).sched c p).on = update s.on c none := by
    funext d
    simp only [State.on, State.sched, State.setProc, update_apply]
    split_ifs <;> rfl
  rw [hruns, hon]
  exact h.cpus.park hcpu

theorem park (h : Table s) (hcpu : (s.cpus c).proc = some p) (hrun : x.state ≠ .running)
    (hlife : x.state.life = .live) (hparent : x.parent = s.parents p)
    (howns : x.pc.owns = s.owned p)
    (hdoze : x.state = .sleeping → x.chan = some (.proc p) → ∀ z, ¬ s.ZombieOf z p) :
    Table ((s.setProc p x).sched c p) := by
  refine h.leave hcpu hrun (family_setProc ?_ hlife hparent howns)
    (h.asleep_setProc hdoze fun hz => ?_)
  · rw [← h.life_of_on hcpu]
    simp only [update_eq_self]
    exact h.family
  · rw [hz] at hlife
    cases hlife

end Table

end Table

end Xv6.Ptable
