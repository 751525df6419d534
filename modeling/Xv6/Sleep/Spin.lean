import Mathlib.Logic.Function.Basic
import Mathlib.Tactic.SplitIfs
import Xv6.Lib.Transition

/-!
# Spin locks and the interrupt flag

`acquire`, `release`, `holding`, `pushcli` and `popcli` of spinlock.c, run by any number of
processors on any number of locks.  A step is one access to a lock, since other processors
may come in between; `pushcli` and `popcli` use only the processor's own state.  Each
processor also carries what the code around spinlock.c has done there: the locks it holds,
the calls of `pushcli` it has still to undo, and whether it left interrupts enabled.
-/

namespace Xv6.Spin

open Lib List Function

/-- Where a processor is in `acquire` or `release`. -/
inductive Pc (L : Type) where
  | out
  | testing (l : L)
  | spinning (l : L)
  /-- `xchg` has returned 0 -/
  | taken (l : L)
  | clearing (l : L)
  | unlocking (l : L)
  | popping
  deriving DecidableEq

/-- `ncli` and `intena` of `struct cpu`, with the flag `FL_IF` of the processor. -/
structure Cpu where
  ncli : Int
  intena : Bool
  fl : Bool

structure Spinlock (C : Type) where
  locked : Bool
  cpu : Option C

structure Core (L : Type) extends Cpu where
  pc : Pc L
  held : List L
  calls : Nat
  enabled : Bool

structure Sys (C L : Type) where
  cores : C → Core L
  locks : L → Spinlock C

/-- After `initlock`; a processor starts with interrupts off. -/
def boot (C L : Type) : Sys C L :=
  ⟨fun _ => ⟨⟨0, false, false⟩, .out, [], 0, false⟩, fun _ => ⟨false, none⟩⟩

def pushcli (p : Cpu) : Cpu :=
  { ncli := p.ncli + 1, intena := if p.ncli = 0 then p.fl else p.intena, fl := false }

def popcli (p : Cpu) : Outcome Cpu Unit :=
  if p.fl then .panic "popcli - interruptible"
  else if p.ncli - 1 < 0 then .panic "popcli"
  else .ok () { p with ncli := p.ncli - 1, fl := p.ncli - 1 = 0 && p.intena }

inductive Act (L : Type) where
  | acquire (l : L)
  | release (l : L)
  | pushcli
  | popcli
  /-- the next access of a call of `acquire` or `release` -/
  | go
  /-- `sti` of the scheduler, or the `iret` that ends a trap -/
  | sti
  /-- an interrupt gate clears the flag -/
  | interrupt
  /-- `sched` is back from `swtch` and restores `intena` -/
  | sched (intena : Bool)

section Model

variable {C L : Type} [DecidableEq C] [DecidableEq L] {s : Sys C L} {c : C} {l : L} {p : Core L}

/-- Its `pushcli` and `popcli` leave the processor as it was, `Core.Ok.popcli_pushcli`. -/
def holding (s : Sys C L) (c : C) (l : L) : Bool := (s.locks l).locked && (s.locks l).cpu == some c

def Sys.setCore (s : Sys C L) (c : C) (p : Core L) : Sys C L :=
  { s with cores := update s.cores c p }

def Sys.setLock (s : Sys C L) (l : L) (k : Spinlock C) : Sys C L :=
  { s with locks := update s.locks l k }

/-- `popcli` at the end of `release`, or called from elsewhere. -/
def Sys.pop (s : Sys C L) (c : C) (p : Core L) : Outcome (Sys C L) Unit :=
  match Spin.popcli p.toCpu with
  | .ok _ p' => .ok () (s.setCore c { p with toCpu := p' })
  | .blocked => .blocked
  | .panic msg => .panic msg

def goOn (s : Sys C L) (c : C) : Outcome (Sys C L) Unit :=
  let p := s.cores c
  match p.pc with
  | .out => .blocked
  | .testing l =>
    if holding s c l then .panic "acquire" else .ok () (s.setCore c { p with pc := .spinning l })
  | .spinning l =>
    if (s.locks l).locked then .ok () s
    else
      .ok () ((s.setLock l { s.locks l with locked := true }).setCore c { p with pc := .taken l })
  | .taken l =>
    .ok () ((s.setLock l { s.locks l with cpu := some c }).setCore c
      { p with pc := .out, held := l :: p.held })
  | .clearing l =>
    .ok () ((s.setLock l { s.locks l with cpu := none }).setCore c { p with pc := .unlocking l })
  | .unlocking l =>
    .ok () ((s.setLock l { s.locks l with locked := false }).setCore c { p with pc := .popping })
  | .popping => s.pop c { p with pc := .out }

/-- The callers undo only `pushcli` calls of their own, and enable interrupts only where
none is open. -/
def step (s : Sys C L) (x : C × Act L) : Outcome (Sys C L) Unit :=
  let c := x.1
  let p := s.cores c
  match x.2, p.pc with
  | .go, _ => goOn s c
  | .interrupt, _ =>
    if p.fl then .ok () (s.setCore c { p with fl := false, enabled := false }) else .blocked
  | .acquire l, .out =>
    .ok () (s.setCore c { p with toCpu := pushcli p.toCpu, pc := .testing l })
  | .release l, .out =>
    if holding s c l then
      .ok () (s.setCore c { p with pc := .clearing l, held := p.held.erase l })
    else .panic "release"
  | .pushcli, .out =>
    .ok () (s.setCore c { p with toCpu := pushcli p.toCpu, calls := p.calls + 1 })
  | .popcli, .out => if p.calls = 0 then .blocked else s.pop c { p with calls := p.calls - 1 }
  | .sti, .out =>
    if p.ncli = 0 then .ok () (s.setCore c { p with fl := true, enabled := true }) else .blocked
  | .sched intena, .out =>
    if p.ncli = 1 then .ok () (s.setCore c { p with intena := intena, enabled := intena })
    else .blocked
  | _, _ => .blocked

/-- The processor has the lock word `l` set. -/
@[simp] def Core.Owns (p : Core L) (l : L) : Prop :=
  l ∈ p.held ∨ p.pc = .taken l ∨ p.pc = .clearing l ∨ p.pc = .unlocking l

/-- The processor is the one that `l` names. -/
@[simp] def Core.Named (p : Core L) (l : L) : Prop := l ∈ p.held ∨ p.pc = .clearing l

structure Core.Ok (p : Core L) : Prop where
  nodup : p.held.Nodup
  other : ∀ l, p.pc ∈ [.spinning l, .taken l, .clearing l, .unlocking l] → l ∉ p.held
  ncli : p.ncli = p.held.length + p.calls + if p.pc = .out then 0 else 1
  fl : p.fl = (p.ncli = 0 && p.enabled)
  intena : p.ncli ≠ 0 → p.intena = p.enabled

structure Inv (s : Sys C L) : Prop where
  locked : ∀ l, (s.locks l).locked = true ↔ ∃ c, (s.cores c).Owns l
  cpu : ∀ l c, (s.locks l).cpu = some c ↔ (s.cores c).Named l
  alone : ∀ l c c', (s.cores c).Owns l → (s.cores c').Owns l → c = c'
  ok : ∀ c, (s.cores c).Ok

omit [DecidableEq L] in
theorem Core.Named.owns (h : p.Named l) : p.Owns l := by
  rcases h with h | h <;> simp [h]

/-- A step of a processor that changes no lock. -/
theorem Inv.setCore (h : Inv s) (hown : ∀ l, p.Owns l ↔ (s.cores c).Owns l)
    (hname : ∀ l, p.Named l ↔ (s.cores c).Named l) (hok : p.Ok) : Inv (s.setCore c p) := by
  have hlock := h.locked
  have hcpu := h.cpu
  have halone := h.alone
  refine ⟨?_, ?_, ?_, (forall_update_iff s.cores fun _ p => p.Ok).mpr
    ⟨hok, fun c' _ => h.ok c'⟩⟩ <;>
    simp only [Sys.setCore, update_apply] <;> grind

/-- A step of a processor at a lock that it has or that is free. -/
theorem Inv.setLock (h : Inv s) {k : Spinlock C}
    (hmine : (s.locks l).locked = true → (s.cores c).Owns l) (hlocked : k.locked = true ↔ p.Owns l)
    (hcpu : k.cpu = (s.locks l).cpu ∧ (p.Named l ↔ (s.cores c).Named l) ∨
      k.cpu = some c ∧ p.Named l ∨ k.cpu = none ∧ ¬ p.Named l)
    (hrest : ∀ l', l ≠ l' →
      (p.Owns l' ↔ (s.cores c).Owns l') ∧ (p.Named l' ↔ (s.cores c).Named l'))
    (hok : p.Ok) : Inv ((s.setLock l k).setCore c p) := by
  have hother : ∀ c', c' ≠ c → ¬ (s.cores c').Owns l := fun c' hc ho =>
    hc (h.alone l c' c ho (hmine ((h.locked l).mpr ⟨c', ho⟩)))
  have hnamed : ∀ c', c' ≠ c → ¬ (s.cores c').Named l := fun c' hc hn => hother c' hc hn.owns
  have hlock := h.locked
  have hname := h.cpu
  have halone := h.alone
  refine ⟨?_, ?_, ?_, (forall_update_iff s.cores fun _ p => p.Ok).mpr
    ⟨hok, fun c' _ => h.ok c'⟩⟩ <;>
    simp only [Sys.setCore, Sys.setLock, update_apply] <;> grind

theorem Inv.holding (h : Inv s) : holding s c l = true ↔ (s.cores c).Named l := by
  simp only [Spin.holding, Bool.and_eq_true, beq_iff_eq, h.cpu, h.locked, and_iff_right_iff_imp]
  exact fun hn => ⟨c, hn.owns⟩

/-- After `pushcli`, on entry to `acquire` or back in the caller. -/
theorem Core.Ok.pushcli (h : p.Ok) (hpc : p.pc = .out) {pc : Pc L} {calls : Nat}
    (hin : (pc = .out ∧ calls = p.calls + 1) ∨ ∃ l, pc = .testing l ∧ calls = p.calls) :
    Core.Ok { p with toCpu := pushcli p.toCpu, pc, calls } := by
  have hn := h.ncli
  simp only [hpc, if_true] at hn
  refine ⟨h.nodup, ?_, ?_, ?_, fun _ => ?_⟩
  · rcases hin with ⟨rfl, -⟩ | ⟨l, rfl, -⟩ <;> simp
  · rcases hin with ⟨rfl, rfl⟩ | ⟨l, rfl, rfl⟩ <;> simp [Spin.pushcli, hn, Int.add_assoc]
  · have : p.ncli + 1 ≠ 0 := by omega
    simp [Spin.pushcli, this]
  · simp only [Spin.pushcli]
    split_ifs with h0
    · simp [h.fl, h0]
    · exact h.intena h0

/-- A matched pair changes at most `intena`, which is not in use while `ncli` is 0. -/
theorem Core.Ok.popcli_pushcli (h : p.Ok) :
    ∃ intena, popcli (Spin.pushcli p.toCpu) = .ok () { p.toCpu with intena } := by
  have hn := h.ncli
  have hfl := h.fl
  have hpos : ¬ p.ncli < 0 := by split_ifs at hn <;> omega
  refine ⟨if p.ncli = 0 then p.fl else p.intena, ?_⟩
  simp only [popcli, Spin.pushcli, Bool.false_eq_true, if_false, Int.add_sub_cancel, hpos]
  by_cases h0 : p.ncli = 0
  · simp [h0]
  · simpa [h0] using hfl

/-- The two calls that panic: `release` of a lock the processor does not hold, and `acquire`
of one it holds. -/
def Misuse (s : Sys C L) (c : C) (a : Act L) (msg : String) : Prop :=
  ∃ l, (a = .release l ∧ (s.cores c).pc = .out ∧ l ∉ (s.cores c).held ∧ msg = "release") ∨
    (a = .go ∧ (s.cores c).pc = .testing l ∧ l ∈ (s.cores c).held ∧ msg = "acquire")

def Safe (s : Sys C L) (c : C) (a : Act L) : Outcome (Sys C L) Unit → Prop
  | .ok _ s' => Inv s'
  | .blocked => True
  | .panic msg => Misuse s c a msg

theorem Inv.pop (h : Inv s) {a : Act L} (hown : ∀ l, p.Owns l ↔ (s.cores c).Owns l)
    (hname : ∀ l, p.Named l ↔ (s.cores c).Named l) (hnodup : p.held.Nodup) (hpc : p.pc = .out)
    (hn : p.ncli = p.held.length + p.calls + 1) (hfl : p.fl = false)
    (hint : p.intena = p.enabled) : Safe s c a (s.pop c p) := by
  simp only [Sys.pop, popcli, hfl, Bool.false_eq_true, if_false]
  rw [if_neg (by omega)]
  refine h.setCore hown hname ⟨hnodup, by simp [hpc], ?_, by simp [hint], fun _ => hint⟩
  simp [hpc, hn]

theorem Inv.goOn (h : Inv s) : Safe s c .go (goOn s c) := by
  have hok := h.ok c
  rw [Spin.goOn]
  split
  · trivial
  · case _ l hpc =>
    split_ifs with hhold <;> rw [h.holding] at hhold
    · exact ⟨l, .inr ⟨rfl, hpc, by simpa [hpc] using hhold, rfl⟩⟩
    · refine h.setCore (by simp [hpc]) (by simp [hpc])
        ⟨hok.nodup, ?_, by simpa [hpc] using hok.ncli, hok.fl, hok.intena⟩
      simpa [hpc] using hhold
  · case _ l hpc =>
    split_ifs with hlocked
    · exact h
    · exact h.setLock (fun hl => absurd hl hlocked) (by simp)
        (.inl ⟨rfl, by simp [hpc]⟩) (by simp +contextual [hpc])
        ⟨hok.nodup, by simpa [hpc] using hok.other l, by simpa [hpc] using hok.ncli, hok.fl,
          hok.intena⟩
  -- the processor has the lock in the next three cases
  · case _ l hpc =>
    have howns : (s.cores c).Owns l := by simp [hpc]
    refine h.setLock (fun _ => howns) (by simpa using (h.locked l).mpr ⟨c, howns⟩)
      (.inr (.inl ⟨rfl, by simp⟩)) ?_
      ⟨nodup_cons.mpr ⟨hok.other l (by simp [hpc]), hok.nodup⟩, by simp, ?_, hok.fl, hok.intena⟩
    · intro l' hl
      simp [hpc, hl, hl.symm]
    · simp [hok.ncli, hpc]
      omega
  · case _ l hpc =>
    have howns : (s.cores c).Owns l := by simp [hpc]
    exact h.setLock (fun _ => howns) (by simpa using (h.locked l).mpr ⟨c, howns⟩)
      (.inr (.inr ⟨rfl, by simpa [hpc] using hok.other l⟩))
      (by simp +contextual [hpc])
      ⟨hok.nodup, by simpa [hpc] using hok.other l, by simpa [hpc] using hok.ncli, hok.fl,
        hok.intena⟩
  · case _ l hpc =>
    exact h.setLock (fun _ => by simp [hpc])
      (by simpa [hpc] using hok.other l) (.inl ⟨rfl, by simp [hpc]⟩)
      (by simp +contextual [hpc])
      ⟨hok.nodup, by simp, by simpa [hpc] using hok.ncli, hok.fl, hok.intena⟩
  · case _ hpc =>
    have hn := hok.ncli
    simp only [hpc, reduceCtorEq, if_false] at hn
    have hne : (s.cores c).ncli ≠ 0 := by omega
    exact h.pop (by simp [hpc]) (by simp [hpc]) hok.nodup rfl hn
      (by simpa [hne] using hok.fl) (hok.intena hne)

theorem Inv.step (h : Inv s) (c : C) (a : Act L) : Safe s c a (step s (c, a)) := by
  have hok := h.ok c
  have hn := hok.ncli
  simp only [Spin.step]
  split
  · exact h.goOn
  · split_ifs with hfl
    · rw [hok.fl, Bool.and_eq_true, decide_eq_true_eq] at hfl
      exact h.setCore (fun _ => .rfl) (fun _ => .rfl)
        ⟨hok.nodup, hok.other, hn, by simp, fun hne => absurd hfl.1 hne⟩
    · trivial
  · case _ l hpc =>
    exact h.setCore (by simp [hpc]) (by simp [hpc])
      (hok.pushcli hpc (.inr ⟨l, rfl, rfl⟩))
  · case _ l hpc =>
    split_ifs with hhold <;> rw [h.holding] at hhold <;> simp only [Core.Named, hpc] at hhold
    · have hmem : l ∈ (s.cores c).held := by simpa using hhold
      have hmem' := fun l' => hok.nodup.mem_erase_iff (a := l') (b := l)
      have hpos := length_pos_of_mem hmem
      refine h.setCore ?_ ?_ ⟨hok.nodup.erase l, by simp [hmem'], ?_, hok.fl, hok.intena⟩
      · intro l'
        simp only [Core.Owns, hpc, hmem']
        grind
      · intro l'
        simp only [Core.Named, hpc, hmem']
        grind
      · simp [hn, hpc, length_erase_of_mem hmem]
        omega
    · exact ⟨l, .inl ⟨rfl, hpc, by simpa using hhold, rfl⟩⟩
  · case _ hpc =>
    exact h.setCore (fun _ => .rfl) (fun _ => .rfl) (hok.pushcli hpc (.inl ⟨hpc, rfl⟩))
  · case _ hpc =>
    simp only [hpc, if_true] at hn
    split_ifs with hcalls
    · trivial
    · have hne : (s.cores c).ncli ≠ 0 := by omega
      refine h.pop (fun _ => .rfl) (fun _ => .rfl) hok.nodup hpc ?_ ?_ (hok.intena hne)
      · simp only
        omega
      · simpa [hne] using hok.fl
  · split_ifs with h0
    · exact h.setCore (fun _ => .rfl) (fun _ => .rfl)
        ⟨hok.nodup, hok.other, hn, by simp [h0], fun hne => absurd h0 hne⟩
    · trivial
  · split_ifs with h1
    · exact h.setCore (fun _ => .rfl) (fun _ => .rfl)
        ⟨hok.nodup, hok.other, hn, by simpa [h1] using hok.fl, fun _ => rfl⟩
    · trivial
  · trivial

omit [DecidableEq C] in
theorem boot_inv : Inv (boot C L) := by
  refine ⟨?_, ?_, ?_, fun c => ⟨nodup_nil, by simp [boot], rfl, rfl, by simp [boot]⟩⟩ <;>
    simp [boot, Core.Owns, Core.Named]

/-- In every interleaving, a lock is held by one processor at most, and a processor that
spins waits for another one.  `ncli` counts the locks and calls a processor has to undo;
interrupts are off until it is 0, and are then as they were left, and `pushcli` and `popcli`
undo each other.  `acquire` and `release` panic when they are misused and never otherwise. -/
theorem spinlocks {tr : List (Sys C L × C × Act L)} (htr : Trace step (boot C L) tr s) :
    (∀ l c c', l ∈ (s.cores c).held → l ∈ (s.cores c').held → c = c') ∧
    (∀ l c, (s.cores c).pc = .spinning l → (s.locks l).locked = true →
      ∃ c' ≠ c, (s.cores c').Owns l) ∧
    (∀ c, (s.cores c).held.Nodup ∧ (s.cores c).ncli =
      (s.cores c).held.length + (s.cores c).calls + if (s.cores c).pc = .out then 0 else 1) ∧
    (∀ c, (s.cores c).fl = ((s.cores c).ncli = 0 && (s.cores c).enabled) ∧ ∃ intena,
      popcli (pushcli (s.cores c).toCpu) = .ok () { (s.cores c).toCpu with intena }) ∧
    ∀ c a msg, step s (c, a) = .panic msg ↔ Misuse s c a msg := by
  have h : Inv s := by
    refine Trace.invariant (I := fun _ s => Inv s) boot_inv ?_ htr
    intro tr s a s' _ hs hstep
    have := hs.step a.1 a.2
    rwa [hstep] at this
  refine ⟨?_, ?_, fun c => ⟨(h.ok c).nodup, (h.ok c).ncli⟩,
    fun c => ⟨(h.ok c).fl, (h.ok c).popcli_pushcli⟩, ?_⟩
  · exact fun l c c' hc hc' => h.alone l c c' (.inl hc) (.inl hc')
  · intro l c hpc hlocked
    obtain ⟨c', ho⟩ := (h.locked l).mp hlocked
    refine ⟨c', ?_, ho⟩
    rintro rfl
    have := (h.ok c').other l (by simp [hpc])
    simp [hpc, this] at ho
  · intro c a msg
    constructor
    · intro hpanic
      have := h.step c a
      rwa [hpanic] at this
    · rintro ⟨l, ⟨rfl, hpc, hheld, rfl⟩ | ⟨rfl, hpc, hheld, rfl⟩⟩
      · have : holding s c l = false := by
          rw [← Bool.not_eq_true, h.holding]
          simp [hpc, hheld]
        simp [step, hpc, this]
      · have : holding s c l = true := h.holding.mpr (.inl hheld)
        simp [step, goOn, hpc, this]

end Model

theorem spinlocks_contended : ∃ tr s, Trace step (boot (Fin 2) Unit) tr s ∧
    (s.cores 1).pc = .spinning () ∧ ∃ c' ≠ 1, (s.cores c').Owns () := by
  obtain ⟨tr, s, htr, -, hgood⟩ := Trace.of_actions step (boot (Fin 2) Unit)
    [(0, .acquire ()), (0, .go), (0, .go), (0, .go), (1, .acquire ()), (1, .go), (1, .go)]
    (fun s => (s.cores 1).pc = .spinning () && (s.locks ()).locked) (by decide +kernel)
  rw [Bool.and_eq_true, decide_eq_true_eq] at hgood
  exact ⟨tr, s, htr, hgood.1, (spinlocks htr).2.1 () 1 hgood.1 hgood.2⟩

end Xv6.Spin
