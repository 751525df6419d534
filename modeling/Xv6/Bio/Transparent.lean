import Xv6.Bio.Capacity

/-!
# The buffer cache is transparent

Over every interleaving the cache behaves like a plain map from block numbers to contents.  The map
is read off the history of the run: it changes at the append of a `log_write` and at the disk write
of a `bwrite`.  `install_trans` is not meant to change it.  But `bwrite` does not look at the log: a
process that calls it on a logged block lets the block go before it is installed, and when
`write_log` has copied the block already, the older copy is installed over it.
-/

namespace Xv6.Bio

open Lib Log.Control Function

variable {P : Type}

/-- The operation the next step of `p` executes. -/
def opOf (s : Sys P) (p : P) : Option CacheOp :=
  match s.threads p with
  | .inside _ (.op o _) _ => some o
  | _ => none

/-- The contents as the disk writes leave them, whoever makes them. -/
def written (disk : Disk) : List (Sys P × P) → Contents
  | [] => fun b => (disk b, false)
  | (s, p) :: tr =>
    match opOf s p with
    | some o => store s.cache o (written disk tr)
    | none => written disk tr

def Thread.installs : Thread → Bool
  | .inside (.bwrite .install _) _ _ => true
  | _ => false

/-- The contents by the history of a run, newest step first.  A `bwrite` stores the data, except
in `install_trans`, where it ends the wait of a logged block. -/
def contents (disk : Disk) : List (Sys P × P) → Contents
  | [] => fun b => (disk b, false)
  | (s, p) :: tr =>
    let A := contents disk tr
    match opOf s p with
    | some (.iderw i) =>
      let b := s.cache.bufs i
      if b.dirty then
        update A b.blockno
          (if (s.threads p).installs then ((A b.blockno).1, false) else (b.data, (A b.blockno).2))
      else A
    | some o => store s.cache o A
    | none => A

def ThreadOk (v : View) (w : LogView) : Thread → Prop
  | .between rest => ∃ h, v = ofHolds h ∧
      (callProtocol.prod phaseCalls).wp rest (fun _ _ => True) (h, w)
  | .inside c body rest => ∃ h, (cacheProtocol.prod phaseProtocol).wp body (fun r x => ∃ h',
      (callProtocol.post c h r h' ∧ x.1 = ofHolds h') ∧
        (callProtocol.prod phaseCalls).wp (rest r) (fun _ _ => True) (h', x.2)) (v, w)

theorem ThreadOk.enter {v : View} {w : LogView} {c : Call} {k : c.Ret → CallM Unit}
    (h : ThreadOk v w (.between (.op c k))) : ThreadOk v w (.inside c (body c) k) := by
  obtain ⟨hs, rfl, hpre, hk⟩ := h
  refine ⟨hs, ?_⟩
  apply Protocol.wp_mono (Protocol.wp_prod (body_meets c hs hpre.1) (body_phases c w hpre.2))
  rintro r x ⟨⟨hs', hpost, hv⟩, hphases⟩
  exact ⟨hs', ⟨hpost, hv⟩, hk r (hs', x.2) ⟨hpost, hphases⟩⟩

theorem ThreadOk.leave {v : View} {w : LogView} {c : Call} {r : c.Ret} {rest : c.Ret → CallM Unit}
    (h : ThreadOk v w (.inside c (.ret r) rest)) : ThreadOk v w (.between (rest r)) := by
  obtain ⟨-, h', ⟨-, hv⟩, hk⟩ := h
  exact ⟨h', hv, hk⟩

variable [Fintype P] [DecidableEq P]

/-- The invariant of a run on the initial disk `disk`. -/
structure Inv (disk : Disk) (tr : List (Sys P × P)) (s : Sys P) (view : P → View)
    (lv : P → LogView) : Prop where
  threads : ∀ p, ThreadOk (view p) (lv p) (s.threads p)
  owned : Owned view s.cache
  coherent : Coherent (written disk tr) view s.cache
  pins : Pins view lv s.cache

omit [DecidableEq P] in
theorem inv_init (disk : Disk) (disksize start : Nat) (size : Int) {progs : P → CallM Unit}
    (hclient : ∀ p, Client false (fun _ => none) (progs p)) :
    Inv disk [] (init disk disksize start size progs) (fun _ => ofHolds fun _ => none)
      fun _ => ⟨.outside, fun _ => 0⟩ where
  threads p := ⟨_, rfl, phases_client (hclient p) rfl rfl⟩
  owned := by
    refine ⟨?_, ?_, ?_, ?_⟩
    · simp [init, View.refs, ofHolds]
    · simp [init, ofHolds]
    · simp [ofHolds]
    · simp [ofHolds]
  coherent := by
    refine ⟨?_, ?_, ?_, ?_, ?_, fun b => Or.inl rfl⟩
    · simp [init]
    · simp [init]
    · simp [init]
    · simp [init]
    · simp [init]
  pins := by
    refine ⟨fun p => ⟨?_, ?_⟩, .of_none ?_ rfl fun _ => rfl, ?_, ?_⟩
    all_goals simp [init, ofHolds, DirtyIn]

section Step

variable {disk : Disk} {tr : List (Sys P × P)} {s : Sys P} {view : P → View} {lv : P → LogView}
  {p : P}

omit [Fintype P] in
theorem threads_update (h : ∀ q, ThreadOk (view q) (lv q) (s.threads q)) {v : View} {w : LogView}
    {th : Thread} (hth : ThreadOk v w th) (q : P) :
    ThreadOk (update view p v q) (update lv p w q) (update s.threads p th q) := by
  by_cases hq : q = p
  · subst hq
    rwa [update_self, update_self, update_self]
  · rw [update_of_ne hq, update_of_ne hq, update_of_ne hq]
    exact h q

/-- A step that enters or leaves a function. -/
theorem Inv.move (h : Inv disk tr s view lv) {th : Thread} (hop : opOf s p = none)
    (hth : ThreadOk (view p) (lv p) th) :
    Inv disk ((s, p) :: tr) (s.setThread p th) view lv := by
  refine ⟨fun q => ?_, h.owned, ?_, h.pins⟩
  · have hall := threads_update (p := p) h.threads hth q
    rwa [update_eq_self, update_eq_self] at hall
  · simpa only [written, hop, Sys.setThread] using h.coherent

theorem inv_step {s' : Sys P} (h : Inv disk tr s view lv) (hstep : step s p = .ok () s') :
    ∃ view' lv', Inv disk ((s, p) :: tr) s' view' lv' := by
  have hp := h.threads p
  unfold step at hstep
  split at hstep
  · cases hstep
  · rename_i c k hth
    cases hstep
    rw [hth] at hp
    exact ⟨view, lv, h.move (by simp [opOf, hth]) hp.enter⟩
  · rename_i c r rest hth
    cases hstep
    rw [hth] at hp
    exact ⟨view, lv, h.move (by simp [opOf, hth]) hp.leave⟩
  · rename_i c o k rest hth
    split at hstep
    · rename_i r cache' hop
      cases hstep
      rw [hth] at hp
      obtain ⟨hs, ⟨hpre, hphase⟩, hk⟩ := hp
      obtain ⟨v, hpost, ho, hc⟩ := cache_step h.owned h.coherent hpre hop
      obtain ⟨w, hpost', hpins⟩ := h.pins.step h.owned h.coherent ho hpre hphase hop hpost
      have hinside : ThreadOk v w (.inside c (k r) rest) := ⟨hs, hk r (v, w) ⟨hpost, hpost'⟩⟩
      refine ⟨_, _, threads_update h.threads hinside, ho, ?_, hpins⟩
      have hopOf : opOf s p = some o := by simp [opOf, hth]
      simpa only [written, hopOf, Sys.setThread] using hc
    · cases hstep
    · cases hstep

end Step

theorem inv_trace {disk : Disk} {disksize start : Nat} {size : Int} {progs : P → CallM Unit}
    (hclient : ∀ p, Client false (fun _ => none) (progs p)) {tr : List (Sys P × P)} {s : Sys P}
    (htr : Trace step (init disk disksize start size progs) tr s) :
    ∃ view lv, Inv disk tr s view lv := by
  apply htr.invariant (I := fun tr s => ∃ view lv, Inv disk tr s view lv)
  · exact ⟨_, _, inv_init disk disksize start size hclient⟩
  · rintro tr s p s' - ⟨view, lv, h⟩ hstep
    exact inv_step h hstep

def logs : CallM Unit := do
  call .beginOp
  let i ← call (.bread 1 40)
  call (.setData i 7)
  call (.logWrite i)
  call (.brelse i)
  endOp
  pure ()

def writes : CallM Unit := do
  let i ← call (.bread 1 40)
  call (.setData i 9)
  call (.bwrite .process i)
  call (.brelse i)
  let _ ← call (.bread 1 40)

def programs (p : Bool) : CallM Unit := if p then writes else logs

def twoProcesses : Sys Bool := init (fun _ => 0) 1000 2 30 programs

/-- A `bread` of the second process is about to return a buffer with this data. -/
def returns (data : Block) (s : Sys Bool) : Bool :=
  match s.threads true with
  | .inside (.bread 1 40) (.ret i) _ => (s.cache.bufs i).data == data
  | _ => false

end Xv6.Bio
