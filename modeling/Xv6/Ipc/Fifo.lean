import Xv6.Ipc.Pipe

/-!
# A pipe is a bounded queue

The bytes stored and the bytes read along a run, in the order of the steps, and what
the buffer holds between the two.
-/

namespace Xv6.Ipc

open Lib List

def stores : Pc → Pipe → Option Byte
  | .write addr n i .loop, pipe => if i < n ∧ ¬ pipe.full then some (addr i) else none
  | _, _ => none

def fetches : Pc → Pipe → Option Byte
  | .read n got .copy, pipe =>
    if got.length < n ∧ ¬ pipe.empty then some pipe.front else none
  | _, _ => none

variable {P : Type} {tr : List (State P × Action P)}

def history (bytes : Pc → Pipe → Option Byte) : List (State P × Action P) → List Byte
  | [] => []
  | (s, .step p) :: tr => history bytes tr ++ (bytes (s.procs p).pc s.pipe).toList
  | (_, .start _ _) :: tr => history bytes tr
  | (_, .kill _) :: tr => history bytes tr

variable [DecidableEq P]

/-- The bytes of the steps of `p` since it has last started a call. -/
def sinceStart (bytes : Pc → Pipe → Option Byte) (p : P) : List (State P × Action P) → List Byte
  | [] => []
  | (s, .step q) :: tr =>
    if q = p then sinceStart bytes p tr ++ (bytes (s.procs q).pc s.pipe).toList
    else sinceStart bytes p tr
  | (_, .start q _) :: tr => if q = p then [] else sinceStart bytes p tr
  | (_, .kill _) :: tr => sinceStart bytes p tr

namespace Pipe

variable {pipe : Pipe}

theorem room (hle : (pipe.nwrite - pipe.nread).toNat ≤ PIPESIZE) (hfull : ¬ pipe.full) :
    (pipe.nwrite - pipe.nread).toNat < PIPESIZE := by
  have hne : (pipe.nwrite - pipe.nread).toNat ≠ PIPESIZE := by
    intro heq
    apply hfull
    have hsub : pipe.nwrite - pipe.nread = BitVec.ofNat 32 PIPESIZE := by
      apply BitVec.eq_of_toNat_eq
      rw [heq]
      rfl
    rw [full, ← hsub]
    ring
  omega

theorem buffered_store (hle : (pipe.nwrite - pipe.nread).toNat ≤ PIPESIZE) (hfull : ¬ pipe.full)
    (b : Byte) : (pipe.store b).buffered = pipe.buffered ++ [b] := by
  have hroom : _ < 512 := room hle hfull
  exact ringContents_push (by decide) hroom (by omega) b

theorem buffered_fetch (hempty : ¬ pipe.empty) :
    pipe.buffered = pipe.front :: pipe.fetch.buffered :=
  ringContents_pop (by decide) hempty

theorem count_store (hle : (pipe.nwrite - pipe.nread).toNat ≤ PIPESIZE) (hfull : ¬ pipe.full)
    (b : Byte) : ((pipe.store b).nwrite - (pipe.store b).nread).toNat ≤ PIPESIZE := by
  have hroom : _ < 512 := room hle hfull
  change (pipe.nwrite + 1 - pipe.nread).toNat ≤ 512
  rw [ring_succ_sub (by omega)]
  omega

theorem count_fetch (hle : (pipe.nwrite - pipe.nread).toNat ≤ PIPESIZE) (hempty : ¬ pipe.empty) :
    (pipe.fetch.nwrite - pipe.fetch.nread).toNat ≤ PIPESIZE := by
  have hlen := ring_sub_succ hempty
  change (pipe.nwrite - (pipe.nread + 1)).toNat ≤ PIPESIZE
  omega

end Pipe

section Moves

variable {me : P} {killed : Bool} {g : Shared P} {pc : Pc} {m : Move P}

omit [DecidableEq P] in
theorem Moves.buffer (h : Moves me killed g pc m)
    (hle : (g.pipe.nwrite - g.pipe.nread).toNat ≤ PIPESIZE) :
    (m.shared.pipe.nwrite - m.shared.pipe.nread).toNat ≤ PIPESIZE ∧
    (fetches pc g.pipe).toList ++ m.shared.pipe.buffered =
      g.pipe.buffered ++ (stores pc g.pipe).toList := by
  cases h with
  | writeStore hi hfull =>
    refine ⟨Pipe.count_store hle hfull _, ?_⟩
    simp only [fetches, stores, hi, hfull, not_false_eq_true, and_self, if_true, Option.toList,
      nil_append]
    exact Pipe.buffered_store hle hfull _
  | readFetch hlen hempty =>
    refine ⟨Pipe.count_fetch hle hempty, ?_⟩
    simp only [fetches, stores, hlen, hempty, not_false_eq_true, and_self, if_true, Option.toList,
      append_nil]
    exact (Pipe.buffered_fetch hempty).symm
  | writeFull hi hfull => simp_all [fetches, stores]
  | writeEnd hi => simp_all [fetches, stores, Int.not_lt.mpr hi]
  | readEnd hend =>
    have hno : ¬ (_ ∧ ¬ g.pipe.empty) := fun hcon => hend.elim (not_le.mpr hcon.1) hcon.2
    refine ⟨hle, ?_⟩
    simp [fetches, stores, hno]
  | _ => simpa [fetches, stores, Pipe.buffered] using hle

/-- What is known at a point of `pipewrite`. -/
def WriteOk (n : Int) (i : Nat) : WriteAt → Prop
  | .full => (i : Int) < n
  | .done => i = n.toNat
  | .release r => r = n ∧ i = n.toNat ∨ r = -1 ∧ (i : Int) < n
  | _ => True

/-- What is known at a point of `piperead`. -/
def ReadOk (pipe : Pipe) (n : Int) (got : List Byte) : ReadAt → Prop
  | .copy => got = [] → ¬ (pipe.empty ∧ pipe.writeopen = true)
  | .wakeup => 0 < n → got = [] → pipe.empty ∧ pipe.writeopen = false
  | .release r => r = got.length ∧ (0 < n → got = [] → pipe.empty ∧ pipe.writeopen = false) ∨
      r = -1 ∧ got = []
  | _ => got = []

/-- The local variables agree with the bytes `put` and `taken` by the call. -/
def PcOk (pipe : Pipe) (put taken : List Byte) : Pc → Prop
  | .write addr n i point => put = (List.range i).map addr ∧ i ≤ n.toNat ∧ WriteOk n i point
  | .read n got point => taken = got ∧ ReadOk pipe n got point
  | _ => True

omit [DecidableEq P] in
theorem Moves.pcOk {put taken : List Byte} (h : Moves me killed g pc m)
    (hok : PcOk g.pipe put taken pc) :
    PcOk m.shared.pipe (put ++ (stores pc g.pipe).toList) (taken ++ (fetches pc g.pipe).toList)
      m.pc := by
  cases h with
  | writeStore hi hfull =>
    obtain ⟨hput, hle, -⟩ := hok
    refine ⟨?_, by omega, trivial⟩
    simp [stores, hi, hfull, hput, range_succ]
  | writeFull hi hfull =>
    obtain ⟨hput, hle, -⟩ := hok
    exact ⟨by simp [stores, hfull, hput], hle, hi⟩
  | writeEnd hi =>
    obtain ⟨hput, hle, -⟩ := hok
    exact ⟨by simp [stores, Int.not_lt.mpr hi, hput], hle, by simp only [WriteOk]; omega⟩
  | readFetch hlen hempty =>
    obtain ⟨htaken, -⟩ := hok
    exact ⟨by simp [fetches, hlen, hempty, htaken], by simp [ReadOk]⟩
  | readEnd hend =>
    obtain ⟨htaken, hready⟩ := hok
    have hno : ¬ (_ ∧ ¬ g.pipe.empty) := fun hcon => hend.elim (not_le.mpr hcon.1) hcon.2
    refine ⟨by simp [fetches, hno, htaken], ?_⟩
    intro hn hgot
    have hempty : g.pipe.empty := by
      rcases hend with hend | hend
      · simp only [hgot, length_nil, Nat.cast_zero] at hend
        omega
      · exact hend
    refine ⟨hempty, ?_⟩
    by_contra hopen
    exact hready hgot ⟨hempty, by simpa using hopen⟩
  | _ => simp_all [PcOk, WriteOk, ReadOk, stores, fetches]

omit [DecidableEq P] in
theorem PcOk.congr {pipe pipe' : Pipe} {put taken : List Byte} (hok : PcOk pipe put taken pc)
    (hsame : pc.critical = true → pipe' = pipe) : PcOk pipe' put taken pc := by
  cases pc with
  | read n got point =>
    refine ⟨hok.1, ?_⟩
    have hread := hok.2
    cases point with
    | copy | wakeup | release r => rwa [hsame rfl]
    | _ => exact hread
  | _ => exact hok

end Moves

structure Queue (tr : List (State P × Action P)) (s : State P) : Prop where
  held : Held s
  count : (s.pipe.nwrite - s.pipe.nread).toNat ≤ PIPESIZE
  fifo : history stores tr = history fetches tr ++ s.pipe.buffered
  procs : ∀ p, PcOk s.pipe (sinceStart stores p tr) (sinceStart fetches p tr) (s.procs p).pc

theorem queue_init (data : Nat → Byte) (killed : P → Bool) : Queue [] (init data killed) where
  held := held_init data killed
  count := by simp [init]
  fifo := by simp [history, init, Pipe.buffered, ringContents]
  procs := fun _ => trivial

theorem Queue.apply {s : State P} (h : Queue tr s) {p : P}
    {m : Move P} (hm : Moves p (s.procs p).killed s.toShared (s.procs p).pc m) :
    Queue ((s, .step p) :: tr) (s.apply p m) := by
  obtain ⟨hcount, hbuffer⟩ := hm.buffer h.count
  refine ⟨h.held.apply hm, hcount, ?_, ?_⟩
  · change history stores tr ++ (stores (s.procs p).pc s.pipe).toList =
      history fetches tr ++ (fetches (s.procs p).pc s.pipe).toList ++ m.shared.pipe.buffered
    rw [h.fifo, append_assoc, append_assoc, ← hbuffer]
  · intro q
    by_cases hq : q = p
    · subst hq
      simp only [sinceStart, if_true, State.apply_self]
      exact hm.pcOk (h.procs q)
    · rw [State.apply_pc_of_ne hq]
      simp only [sinceStart, if_neg (Ne.symm hq)]
      apply (h.procs q).congr
      intro hcrit
      -- the lock is with `q`, so the step of `p` does not touch the pipe
      have hlock := (h.held.critical q).mp hcrit
      rcases hm.pipe (h.held.critical p).mp with hsame | hnone | hself
      · exact hsame
      · rw [hlock] at hnone
        cases hnone
      · rw [hlock] at hself
        cases hself
        exact absurd rfl hq

theorem Queue.step {s s' : State P} {a : Action P}
    (h : Queue tr s) (hstep : step s a = .ok () s') : Queue ((s, a) :: tr) s' := by
  have hheld := h.held.step hstep
  rcases step_cases hstep with ⟨p, c, rfl, -, rfl⟩ | ⟨p, m, rfl, -, hm, rfl⟩ | ⟨p, rfl, -, rfl⟩
  · refine ⟨hheld, h.count, h.fifo, ?_⟩
    intro q
    simp only [sinceStart, Function.update_apply]
    by_cases hq : q = p
    · simp only [hq, if_true]
      cases c with
      | pipewrite addr n => exact ⟨rfl, Nat.zero_le _, trivial⟩
      | piperead n => exact ⟨rfl, rfl⟩
      | pipeclose writable => trivial
    · simp only [hq, if_neg (Ne.symm hq), if_false]
      exact h.procs q
  · exact h.apply (moves_of_move hm)
  · refine ⟨hheld, h.count, h.fifo, ?_⟩
    intro q
    have hq := h.procs q
    simp only [sinceStart, Function.update_apply]
    split_ifs with heq
    · rwa [heq] at hq ⊢
    · exact hq

/-- For any processes and any interleaving: at most `PIPESIZE` bytes are buffered; the
bytes read are the first bytes stored, in order, and the others are in the buffer; a
writer stores its bytes in order, all of them if it returns `n`; and a reader that
returns 0 for `n > 0` has found the write end closed and nothing left to read. -/
theorem pipe_is_bounded_fifo (data : Nat → Byte) (killed : P → Bool)
    {tr : List (State P × Action P)} {s : State P} (htr : Trace step (init data killed) tr s) :
    (s.pipe.nwrite - s.pipe.nread).toNat ≤ PIPESIZE ∧
    history stores tr = history fetches tr ++ s.pipe.buffered ∧
    (∀ p addr n i point, (s.procs p).pc = .write addr n i point →
      sinceStart stores p tr = (List.range i).map addr ∧
      ∀ r, point = .release r → r = n ∧ i = n.toNat ∨ r = -1 ∧ (i : Int) < n) ∧
    ∀ p n got r, (s.procs p).pc = .read n got (.release r) →
      (r = got.length ∨ r = -1 ∧ got = []) ∧ sinceStart fetches p tr = got ∧
      (0 < n → r = 0 → s.pipe.writeopen = false ∧ history stores tr = history fetches tr) := by
  have h : Queue tr s := Trace.invariant (queue_init data killed)
    (fun _ _ _ _ _ h hstep => h.step hstep) htr
  refine ⟨h.count, h.fifo, ?_, ?_⟩
  · intro p addr n i point hpc
    have hp := h.procs p
    rw [hpc] at hp
    refine ⟨hp.1, ?_⟩
    rintro r rfl
    exact hp.2.2
  · intro p n got r hpc
    have hp := h.procs p
    rw [hpc] at hp
    obtain ⟨htaken, hread⟩ := hp
    refine ⟨?_, htaken, ?_⟩
    · rcases hread with ⟨hr, -⟩ | hr
      · exact Or.inl hr
      · exact Or.inr hr
    · intro hn hr
      rcases hread with ⟨hlen, hclosed⟩ | ⟨hkilled, -⟩
      · have hgot : got = [] := by
          rw [hr] at hlen
          exact length_eq_zero_iff.mp (by exact_mod_cast hlen.symm)
        obtain ⟨hempty, hopen⟩ := hclosed hn hgot
        refine ⟨hopen, ?_⟩
        rw [h.fifo, Pipe.buffered, ringContents_empty hempty, append_nil]
      · omega

def oneByte : List (Action (Fin 2)) :=
  [.start 0 (.pipewrite (fun _ => 7) 1)] ++ List.replicate 6 (.step 0) ++
    [.start 0 (.pipeclose true)] ++ List.replicate 3 (.step 0) ++
    [.start 1 (.piperead 4)] ++ List.replicate 7 (.step 1) ++
    [.start 1 (.piperead 4)] ++ List.replicate 4 (.step 1)

def atEnd (s : State (Fin 2)) : Bool :=
  match (s.procs 1).pc with
  | .read 4 [] (.release 0) => true
  | _ => false

theorem pipe_is_bounded_fifo_one_byte : ∃ tr s,
    Trace step (init (P := Fin 2) (fun _ => 0) fun _ => false) tr s ∧
    s.pipe.writeopen = false ∧ history stores tr = history fetches tr := by
  obtain ⟨tr, s, htr, -, hend⟩ := Trace.of_play step (fun _ _ => true)
    (init (P := Fin 2) (fun _ => 0) fun _ => false) oneByte atEnd (by decide)
  have hpc : (s.procs 1).pc = .read 4 [] (.release 0) := by
    unfold atEnd at hend
    split at hend
    · assumption
    · cases hend
  exact ⟨tr, s, htr, ((pipe_is_bounded_fifo _ _ htr).2.2.2 1 4 [] 0 hpc).2.2 (by decide) rfl⟩

end Xv6.Ipc
