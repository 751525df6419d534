import Xv6.Ide.Locks
import Xv6.Lib.Chain

/-!
# The request queue

In every run of the driver the queue holds the requests that were appended and have not
completed, each once and in order; the disk works on its head; and `iderw` returns only when
its request has completed.
-/

namespace Xv6.Ide

open Lib Monitor Function List

variable {P B : Type} [DecidableEq P] [DecidableEq B] {b : B}

def queued : Pc B → Option B
  | .rw _ _ .acquire | .rw _ _ .append | .rw _ _ (.walk _) | .rw _ _ .release => none
  | .rw b _ _ => some b
  | _ => none

/-- The handler of an interrupt that has not yet taken the head of the queue. -/
def serving : Pc B → Bool
  | .intr .acquire | .intr .take => true
  | _ => false

/-- The buffer after a request that found it as `was`. -/
structure Buf.Completes (b was : Buf) : Prop where
  dev : b.dev = was.dev
  blockno : b.blockno = was.blockno
  ready : b.ready = true
  data : was.dirty = true → b.data = was.data

def Waits (d : Data P B) (b : B) (was : Buf) : Prop := d.bufs b = was ∧ was.ready = false

/-- `pp` points to the link behind the part of the queue that has been walked. -/
def Walk (q : List B) (d : Data P B) (pp : Link B) : Prop :=
  ∃ pre rest, q = pre ++ rest ∧ pp = pre.getLast? ∧ Chain d.qnext (d.load pp) rest

def Local (q : List B) (d : Data P B) : Pc B → Prop
  | .rw b was .acquire | .rw b was .append => b ∉ q ∧ Waits d b was
  | .rw b was (.walk pp) => b ∉ q ∧ Waits d b was ∧ d.qnext b = none ∧ Walk q d pp
  | .rw b was .start => b ∈ q ∧ Waits d b was
  | .rw b was .release | .returned b was => b ∉ q ∧ (d.bufs b).Completes was
  | .rw b was _ => (b ∈ q ∧ Waits d b was) ∨ (b ∉ q ∧ (d.bufs b).Completes was)
  | _ => True

variable {q q' : List B} {d d' : Data P B} {l l' : Pc B} {s s' : System P B} {p : P}
  {call : Call B} {m : DriverMove P B} {a : Act P B} {tr : List (System P B × Act P B)}

omit [DecidableEq P] [DecidableEq B] in
theorem Local.congr (h : Local q d l)
    (hb : ∀ b, active l = some b → (b ∈ q' ↔ b ∈ q) ∧ d'.bufs b = d.bufs b)
    (hlinks : critical l = false ∨ (q' = q ∧ d'.qnext = d.qnext ∧ d'.idequeue = d.idequeue)) :
    Local q' d' l := by
  cases l with
  | idle => trivial
  | intr pt => trivial
  | returned b was =>
    obtain ⟨hmem, hbuf⟩ := hb b rfl
    simp only [Local, hmem, hbuf]
    exact h
  | rw b was pt =>
    obtain ⟨hmem, hbuf⟩ := hb b rfl
    cases pt with
    | walk pp =>
      rcases hlinks with hlinks | ⟨rfl, hnext, hhead⟩
      · cases hlinks
      · obtain ⟨hq, hwaits, hend, hwalk⟩ := h
        have hload : d'.load = d.load := by
          funext pp
          cases pp with
          | none => exact hhead
          | some x => exact congrFun hnext x
        simp only [Local, Waits, Walk, hbuf, hnext, hload]
        exact ⟨hq, hwaits, hend, hwalk⟩
    | _ =>
      simp only [Local, Waits, hmem, hbuf]
      exact h

def appendedBy (s : System P B) : Act P B → Option B
  | .run p .proceed =>
    match (s.threads p).loc with
    | .rw b _ (.walk pp) => if s.data.load pp = none then some b else none
    | _ => none
  | _ => none

def completedBy (s : System P B) : Act P B → Option B
  | .run p .proceed =>
    match (s.threads p).loc with
    | .intr .take => s.data.idequeue
    | _ => none
  | _ => none

def appended : List (System P B × Act P B) → List B
  | [] => []
  | (s, a) :: tr => appended tr ++ (appendedBy s a).toList

def completed : List (System P B × Act P B) → List B
  | [] => []
  | (s, a) :: tr => completed tr ++ (completedBy s a).toList

def Outstanding (s : System P B) : Prop :=
  s.data.device.busy = true ∨ s.data.device.irq = true ∨
    ∃ p, serving (s.threads p).loc = true

def Device.Result (d : Device) : Prop :=
  d.err = false → match d.cmd.write with
    | some data => d.disk d.cmd.place = data
    | none => d.reg = d.disk d.cmd.place

/-- The thread holds `idelock` and is about to start the head `h` of the queue. -/
def Starts (h : B) : Pc B → Prop
  | .rw b _ .start => b = h
  | .intr (.wakeTable _) | .intr (.wakeup1 _) | .intr .wakeRelease | .intr .start => True
  | _ => False

/-- The outstanding command is the one for `h`, the head of the queue. -/
structure Pending (q : List B) (s : System P B) (h : B) : Prop where
  head : q.head? = some h
  cmd : s.data.device.cmd = command (s.data.bufs h)
  started : ∀ p, ¬ Starts h (s.threads p).loc
  result : s.data.device.busy = false → s.data.device.Result

/-- Where a started command is: at the disk, waiting for its handler, or with its handler. -/
structure Tokens (s : System P B) : Prop where
  busy : s.data.device.busy = true → s.data.device.irq = false ∧
    ∀ p, serving (s.threads p).loc = false
  irq : s.data.device.irq = true → ∀ p, serving (s.threads p).loc = false
  unique : ∀ p p', serving (s.threads p).loc = true → serving (s.threads p').loc = true → p = p'

structure Inv (tr : List (System P B × Act P B)) (q : List B) (s : System P B) : Prop where
  base : Base s
  chain : Chain s.data.qnext s.data.idequeue q
  nodup : q.Nodup
  order : appended tr = completed tr ++ q
  requests : ∀ b ∈ q, ∃ p, queued (s.threads p).loc = some b
  known : ∀ p, Local q s.data (s.threads p).loc
  tokens : Tokens s
  pending : Outstanding s → ∃ h, Pending q s h
  starts : ¬ Outstanding s → q = [] ∨
    ∃ h p, q.head? = some h ∧ s.lock = some p ∧ Starts h (s.threads p).loc

omit [DecidableEq B] in
theorem active_of_queued (h : queued l = some b) : active l = some b := by
  revert h
  unfold queued
  split <;> simp_all [active]

omit [DecidableEq B] in
theorem serving_of_applied (happ : Applied s p m s')
    (hp : serving m.loc = serving (s.threads p).loc) (r : P) :
    serving (s'.threads r).loc = serving (s.threads r).loc := by
  by_cases hr : r = p
  · rw [hr, happ.loc, hp]
  · rw [happ.others r hr]

omit [DecidableEq B] in
theorem requests_of_applied (happ : Applied s p m s')
    (h : ∀ b ∈ q, ∃ p, queued (s.threads p).loc = some b)
    (hp : ∀ b ∈ q, queued (s.threads p).loc = some b → queued m.loc = some b) :
    ∀ b ∈ q, ∃ p, queued (s'.threads p).loc = some b := by
  intro b hb
  obtain ⟨r, hr⟩ := h b hb
  by_cases hrp : r = p
  · subst hrp
    exact ⟨r, by rw [happ.loc]; exact hp b hb hr⟩
  · exact ⟨r, by rw [happ.others r hrp]; exact hr⟩

omit [DecidableEq P] in
omit [DecidableEq B] in
theorem Base.active_unique (h : Base s) {r : P}
    (hp : active (s.threads p).loc = some b) (hr : active (s.threads r).loc = some b) : r = p :=
  Option.some.inj ((h.owned r b hr).symm.trans (h.owned p b hp))

omit [DecidableEq P] in
omit [DecidableEq B] in
theorem Base.others_outside (h : Base s) {r : P} (hp : critical (s.threads p).loc = true)
    (hr : r ≠ p) : critical (s.threads r).loc = false :=
  Bool.eq_false_iff.mpr fun hcritical => hr (h.locked.unique hcritical hp)

/-- A move from `l` to `l'` that leaves the disk alone: a handler stays one, and the thread
that has to start the head of the queue stays that thread. -/
structure Quiet (q q' : List B) (l l' : Pc B) : Prop where
  serving : serving l' = serving l
  head : ∀ h, q.head? = some h → q'.head? = some h
  enters : ∀ h, q.head? = some h → Starts h l' → Starts h l
  stays : ∀ h, q.head? = some h → Starts h l → Starts h l' ∧ critical l' = true
  first : q = [] → q' = [] ∨ ∃ h, q'.head? = some h ∧ Starts h l' ∧ critical l' = true

section

variable (h : Inv tr q s)
  (hm : Moves p s.data call (s.threads p).loc m) (hs : s.apply p m = some s')
  (hbufs : m.data.bufs = s.data.bufs)

include h hm hs hbufs

theorem Inv.quiet
    (hdevice : m.data.device = s.data.device) (hquiet : Quiet q q' (s.threads p).loc m.loc)
    (hchain : Chain m.data.qnext m.data.idequeue q') (hnodup : q'.Nodup)
    (horder : appended ((s, a) :: tr) = completed ((s, a) :: tr) ++ q')
    (hrequests : ∀ b ∈ q', ∃ p, queued (s'.threads p).loc = some b)
    (hothers : ∀ r, r ≠ p → Local q' m.data (s.threads r).loc)
    (hknown : Local q' m.data m.loc) : Inv ((s, a) :: tr) q' s' := by
  have happ := applied hs
  have hbase := h.base.apply hm hs
  have hserving := serving_of_applied happ hquiet.serving
  have houtstanding : Outstanding s' ↔ Outstanding s := by
    simp only [Outstanding, happ.data, hdevice, hserving]
  refine ⟨hbase, ?_, hnodup, horder, hrequests, fun r => ?_, ?_, fun hout => ?_, fun hout => ?_⟩
  · rw [happ.data]
    exact hchain
  · rw [happ.data]
    by_cases hr : r = p
    · rw [hr, happ.loc]
      exact hknown
    · rw [happ.others r hr]
      exact hothers r hr
  · refine ⟨?_, ?_, ?_⟩
    · simpa only [happ.data, hdevice, hserving] using h.tokens.busy
    · simpa only [happ.data, hdevice, hserving] using h.tokens.irq
    · simpa only [hserving] using h.tokens.unique
  · obtain ⟨x, hx⟩ := h.pending (houtstanding.mp hout)
    refine ⟨x, hquiet.head x hx.head, ?_, fun r => ?_, ?_⟩
    · rw [happ.data, hdevice, hbufs]
      exact hx.cmd
    · by_cases hr : r = p
      · rw [hr, happ.loc]
        exact fun hstart => hx.started p (hquiet.enters x hx.head hstart)
      · rw [happ.others r hr]
        exact hx.started r
    · rw [happ.data, hdevice]
      exact hx.result
  · rcases h.starts (mt houtstanding.mpr hout) with hnil | ⟨x, r, hx, hlock, hstart⟩
    · refine (hquiet.first hnil).imp_right fun ⟨x, hx, hstart, hcritical⟩ => ?_
      rw [← happ.loc] at hstart hcritical
      exact ⟨x, p, hx, (hbase.locked.lock p).mp hcritical, hstart⟩
    · by_cases hr : r = p
      · subst hr
        obtain ⟨hstart', hcritical⟩ := hquiet.stays x hx hstart
        rw [← happ.loc] at hstart' hcritical
        exact .inr ⟨x, r, hquiet.head x hx, (hbase.locked.lock r).mp hcritical, hstart'⟩
      · refine .inr ⟨x, r, hquiet.head x hx,
          lock_of_ne h.base.locked (proper_moves hm) hs hlock hr, ?_⟩
        rw [happ.others r hr]
        exact hstart

theorem Inv.control
    (hqnext : m.data.qnext = s.data.qnext) (hhead : m.data.idequeue = s.data.idequeue)
    (hdevice : m.data.device = s.data.device) (hquiet : Quiet q q (s.threads p).loc m.loc)
    (hqueued : ∀ b ∈ q, queued (s.threads p).loc = some b → queued m.loc = some b)
    (hknown : Local q m.data m.loc) (happended : appendedBy s a = none)
    (hcompleted : completedBy s a = none) : Inv ((s, a) :: tr) q s' := by
  refine h.quiet hm hs hbufs hdevice hquiet ?_ h.nodup ?_
    (requests_of_applied (applied hs) h.requests hqueued) (fun r _ => ?_) hknown
  · rw [hqnext, hhead]
    exact h.chain
  · simpa [appended, completed, happended, hcompleted] using h.order
  · exact (h.known r).congr (fun b _ => ⟨Iff.rfl, by rw [hbufs]⟩) (.inr ⟨rfl, hqnext, hhead⟩)

end

omit [DecidableEq B] in
theorem quiet_refl (hserving : serving l' = serving l) (hl : ∀ h, ¬ Starts h l)
    (hl' : ∀ h, ¬ Starts h l') : Quiet q q l l' :=
  ⟨hserving, fun _ => id, fun h _ hstart => absurd hstart (hl' h),
    fun h _ hstart => absurd hstart (hl h), .inl⟩

theorem Inv.append (h : Inv tr q s) {was : Buf} (hl : (s.threads p).loc = .rw b was .append)
    (hm : Moves p s.data .proceed (s.threads p).loc ⟨.stay, { s.data with
      qnext := update s.data.qnext b none }, .rw b was (.walk none)⟩)
    (hs : s.apply p ⟨.stay, { s.data with qnext := update s.data.qnext b none },
      .rw b was (.walk none)⟩ = some s') : Inv ((s, .run p .proceed) :: tr) q s' := by
  have hknown := h.known p
  rw [hl] at hknown
  obtain ⟨hbq, hwaits⟩ := hknown
  have hchain : Chain (update s.data.qnext b none) s.data.idequeue q := by
    refine h.chain.congr fun x hx => update_of_ne ?_ _ _
    rintro rfl
    exact hbq hx
  have hcritical : critical (s.threads p).loc = true := by rw [hl]; rfl
  refine h.quiet hm hs rfl rfl ?_ hchain h.nodup ?_ ?_ (fun r hr => ?_) ?_
  · rw [hl]
    exact quiet_refl rfl (fun _ => id) (fun _ => id)
  · simpa [appended, completed, appendedBy, completedBy, hl] using h.order
  · refine requests_of_applied (applied hs) h.requests fun b' _ hq => ?_
    rw [hl] at hq
    cases hq
  · exact (h.known r).congr (fun _ _ => ⟨Iff.rfl, rfl⟩) (.inl (h.base.others_outside hcritical hr))
  · exact ⟨hbq, hwaits, update_self _ _ _, [], q, rfl, rfl, hchain⟩

omit [DecidableEq P] [DecidableEq B] in
theorem Walk.finished {pp : Link B} (h : Walk q d pp) (hload : d.load pp = none) :
    pp = q.getLast? := by
  obtain ⟨pre, rest, rfl, hpp, hchain⟩ := h
  rw [hload] at hchain
  rw [hchain.eq_nil, append_nil]
  exact hpp

omit [DecidableEq P] in
theorem chain_store (h : Chain d.qnext d.idequeue q) (hnodup : q.Nodup) (hb : b ∉ q)
    (hend : d.qnext b = none) :
    Chain (d.store q.getLast? b).qnext (d.store q.getLast? b).idequeue (q ++ [b]) := by
  refine h.append hnodup hb ?_ ?_ ?_ ?_
  · cases hlast : q.getLast? with
    | none => exact hend
    | some x =>
      have hxb : b ≠ x := by
        rintro rfl
        exact hb (mem_of_getLast? hlast)
      simpa [Data.store, hxb] using hend
  · intro x hx
    simp [hx, Data.store]
  · intro x _ hx
    cases hlast : q.getLast? with
    | none => rfl
    | some y =>
      have hxy : x ≠ y := by
        rintro rfl
        exact hx hlast
      simp [Data.store, hxy]
  · cases hlast : q.getLast? with
    | none => simp [Data.store, List.getLast?_eq_none_iff.mp hlast]
    | some y =>
      have hne : q ≠ [] := by
        rintro rfl
        cases hlast
      simp [Data.store, hne]

theorem Inv.link (h : Inv tr q s) {was : Buf} {pp : Link B}
    (hl : (s.threads p).loc = .rw b was (.walk pp)) (hload : s.data.load pp = none)
    (hm : Moves p s.data .proceed (s.threads p).loc ⟨.stay, s.data.store pp b, .rw b was .start⟩)
    (hs : s.apply p ⟨.stay, s.data.store pp b, .rw b was .start⟩ = some s') :
    Inv ((s, .run p .proceed) :: tr) (q ++ [b]) s' := by
  have hknown := h.known p
  rw [hl] at hknown
  obtain ⟨hbq, hwaits, hend, hwalk⟩ := hknown
  obtain rfl := hwalk.finished hload
  have hactive : active (s.threads p).loc = some b := by rw [hl]; rfl
  have hcritical : critical (s.threads p).loc = true := by rw [hl]; rfl
  have hbufs : (s.data.store q.getLast? b).bufs = s.data.bufs := by
    cases q.getLast? <;> rfl
  have hdevice : (s.data.store q.getLast? b).device = s.data.device := by
    cases q.getLast? <;> rfl
  have hmem : ∀ b', b' ≠ b → (b' ∈ q ++ [b] ↔ b' ∈ q) := fun b' hb' => by simp [hb']
  refine h.quiet hm hs hbufs hdevice ?_ (chain_store h.chain h.nodup hbq hend) ?_ ?_ ?_
    (fun r hr => ?_) ?_
  · rw [hl]
    refine ⟨rfl, fun x hx => by simp [hx], fun x hx hstart => ?_, fun _ _ => False.elim,
      fun hnil => .inr ⟨b, by simp [hnil], rfl, rfl⟩⟩
    cases (show b = x from hstart)
    exact absurd (mem_of_mem_head? hx) hbq
  · rw [nodup_append]
    exact ⟨h.nodup, by simp, fun x hx y hy heq => hbq (by simp_all)⟩
  · simp [appended, completed, appendedBy, completedBy, hl, hload, h.order]
  · intro b' hb'
    by_cases hbb : b' = b
    · exact ⟨p, by rw [(applied hs).loc, hbb]; rfl⟩
    · refine requests_of_applied (applied hs) h.requests (fun b'' _ hq => ?_) b'
        ((hmem b' hbb).mp hb')
      rw [hl] at hq
      cases hq
  · refine (h.known r).congr (fun b' hb' => ⟨hmem b' ?_, by rw [hbufs]⟩)
      (.inl (h.base.others_outside hcritical hr))
    rintro rfl
    exact hr (h.base.active_unique hactive hb')
  · refine ⟨by simp, ?_⟩
    rw [Waits, hbufs]
    exact hwaits

omit [DecidableEq B] in
theorem critical_of_starts {x : B} (h : Starts x l) : critical l = true := by
  revert h
  unfold Starts
  split <;> simp [critical]

omit [DecidableEq P] [DecidableEq B] in
theorem head_of_chain (h : Chain d.qnext d.idequeue q) (hhead : d.idequeue = some b) :
    ∃ rest, q = b :: rest ∧ Chain d.qnext (d.qnext b) rest := by
  rw [hhead] at h
  exact h.pop

theorem Inv.started (h : Inv tr q s) (hhead : s.data.idequeue = some b)
    (hstart : idestart s.data b = .ok () d')
    (hm : Moves p s.data .proceed (s.threads p).loc ⟨.stay, d', l'⟩)
    (hs : s.apply p ⟨.stay, d', l'⟩ = some s') (hl : Starts b (s.threads p).loc)
    (hl' : ∀ x, ¬ Starts x l') (hserving : serving l' = serving (s.threads p).loc)
    (hqueued : ∀ b ∈ q, queued (s.threads p).loc = some b → queued l' = some b)
    (hknown : Local q s.data l') (happended : appendedBy s a = none)
    (hcompleted : completedBy s a = none) : Inv ((s, a) :: tr) q s' := by
  have happ := applied hs
  obtain ⟨rest, rfl, -⟩ := head_of_chain h.chain hhead
  have hidle : ¬ Outstanding s := by
    intro hout
    obtain ⟨x, hx⟩ := h.pending hout
    have hxb : b = x := Option.some.inj hx.head
    subst hxb
    exact hx.started p hl
  obtain ⟨hbusy, rfl⟩ := idestart_ok hstart
  have hirq : s.data.device.irq = false :=
    Bool.eq_false_iff.mpr fun hirq => hidle (.inr (.inl hirq))
  have hnone : ∀ r, serving (s.threads r).loc = false := fun r =>
    Bool.eq_false_iff.mpr fun hr => hidle (.inr (.inr ⟨r, hr⟩))
  have hserving' := serving_of_applied happ hserving
  have hout : Outstanding s' := .inl (by rw [happ.data])
  refine ⟨h.base.apply hm hs, ?_, h.nodup, ?_, requests_of_applied happ h.requests hqueued,
    fun r => ?_, ?_, fun _ => ⟨b, rfl, ?_, fun r => ?_, fun hnot => ?_⟩,
      fun hnot => absurd hout hnot⟩
  · rw [happ.data]
    exact h.chain
  · simpa [appended, completed, happended, hcompleted] using h.order
  · rw [happ.data]
    by_cases hr : r = p
    · rw [hr, happ.loc]
      exact hknown.congr (fun _ _ => ⟨Iff.rfl, rfl⟩) (.inr ⟨rfl, rfl, rfl⟩)
    · rw [happ.others r hr]
      exact (h.known r).congr (fun _ _ => ⟨Iff.rfl, rfl⟩) (.inr ⟨rfl, rfl, rfl⟩)
  · refine ⟨fun _ => ⟨?_, fun r => by rw [hserving', hnone]⟩, fun _ r => by rw [hserving', hnone],
      fun r r' hr => ?_⟩
    · rw [happ.data]
      exact hirq
    · rw [hserving', hnone] at hr
      cases hr
  · rw [happ.data]
  · by_cases hr : r = p
    · rw [hr, happ.loc]
      exact hl' b
    · rw [happ.others r hr]
      exact fun hstarts => hr (h.base.locked.unique (critical_of_starts hstarts)
        (critical_of_starts hl))
  · rw [happ.data] at hnot
    cases hnot

omit [DecidableEq P] in
theorem completes_take (d : Data P B) (b : B) : ((d.take b).bufs b).Completes (d.bufs b) := by
  refine ⟨?_, ?_, ?_, fun hdirty => ?_⟩
  · simp [Data.take]
  · simp [Data.take]
  · simp [Data.take, Buf.ready]
  · simp [Data.take, hdirty]

omit [DecidableEq P] in
theorem Local.take {rest : List B} (h : Local (b :: rest) d l) (hb : b ∉ rest)
    (hactive : active l = some b) (hl : ¬ Starts b l) : Local rest (d.take b) l := by
  have hdone : ∀ was, Waits d b was → ((d.take b).bufs b).Completes was := by
    rintro was ⟨rfl, -⟩
    exact completes_take d b
  cases l with
  | idle | intr pt => cases hactive
  | returned b' was =>
    cases hactive
    exact absurd mem_cons_self h.1
  | rw b' was pt =>
    cases hactive
    cases pt with
    | acquire | append | walk pp | release => exact absurd mem_cons_self h.1
    | start => exact absurd rfl hl
    | _ =>
      rcases h with ⟨-, hwaits⟩ | ⟨hnot, -⟩
      · exact .inr ⟨hb, hdone was hwaits⟩
      · exact absurd mem_cons_self hnot

theorem Inv.take (h : Inv tr q s) (hl : (s.threads p).loc = .intr .take)
    (hhead : s.data.idequeue = some b)
    (hm : Moves p s.data .proceed (s.threads p).loc ⟨.stay, s.data.take b, .intr (.wakeTable b)⟩)
    (hs : s.apply p ⟨.stay, s.data.take b, .intr (.wakeTable b)⟩ = some s') :
    ∃ rest, q = b :: rest ∧ Inv ((s, .run p .proceed) :: tr) rest s' := by
  have happ := applied hs
  obtain ⟨rest, rfl, hrest⟩ := head_of_chain h.chain hhead
  refine ⟨rest, rfl, ?_⟩
  have hserves : serving (s.threads p).loc = true := by rw [hl]; rfl
  have hcritical : critical (s.threads p).loc = true := by rw [hl]; rfl
  obtain ⟨x, hx⟩ := h.pending (.inr (.inr ⟨p, hserves⟩))
  obtain rfl : b = x := Option.some.inj hx.head
  have hbusy : s.data.device.busy = false := Bool.eq_false_iff.mpr fun hbusy => by
    rw [(h.tokens.busy hbusy).2 p] at hserves
    cases hserves
  have hirq : s.data.device.irq = false := Bool.eq_false_iff.mpr fun hirq => by
    rw [h.tokens.irq hirq p] at hserves
    cases hserves
  have hnone : ∀ r, serving (s'.threads r).loc = false := by
    intro r
    by_cases hr : r = p
    · rw [hr, happ.loc]
      rfl
    · rw [happ.others r hr]
      exact Bool.eq_false_iff.mpr fun hserving => hr (h.tokens.unique r p hserving hserves)
  have hidle : ¬ Outstanding s' := by
    rintro (hout | hout | ⟨r, hr⟩)
    · rw [happ.data] at hout
      exact absurd (hbusy.symm.trans hout) (by simp)
    · rw [happ.data] at hout
      exact absurd (hirq.symm.trans hout) (by simp)
    · exact absurd ((hnone r).symm.trans hr) (by simp)
  have hnodup := nodup_cons.mp h.nodup
  have hbase := h.base.apply hm hs
  refine ⟨hbase, ?_, hnodup.2, ?_, ?_, fun r => ?_, ⟨fun hb => ?_, fun hi => ?_, fun r r' hr => ?_⟩,
    fun hout => absurd hout hidle, fun _ => ?_⟩
  · rw [happ.data]
    exact hrest
  · simp [appended, completed, appendedBy, completedBy, hl, hhead, h.order]
  · intro b' hb'
    refine requests_of_applied happ h.requests (fun b'' _ hq => ?_) b' (mem_cons_of_mem b hb')
    rw [hl] at hq
    cases hq
  · rw [happ.data]
    by_cases hr : r = p
    · rw [hr, happ.loc]
      trivial
    · rw [happ.others r hr]
      by_cases hactive : active (s.threads r).loc = some b
      · exact (h.known r).take hnodup.1 hactive (hx.started r)
      · refine (h.known r).congr (fun b' hb' => ?_) (.inl (h.base.others_outside hcritical hr))
        have hne : b' ≠ b := by
          rintro rfl
          exact hactive hb'
        exact ⟨by simp [hne], by simp [Data.take, hne]⟩
  · exact absurd (.inl hb) hidle
  · exact absurd (.inr (.inl hi)) hidle
  · rw [hnone] at hr
    cases hr
  · cases rest with
    | nil => exact .inl rfl
    | cons y rest =>
      refine .inr ⟨y, p, rfl, (hbase.locked.lock p).mp ?_, ?_⟩
      · rw [happ.loc]
        rfl
      · rw [happ.loc]
        trivial

theorem Inv.interrupt (h : Inv tr q s) (hl : (s.threads p).loc = .idle)
    (hirq : s.data.device.irq = true)
    (hm : Moves p s.data .interrupt (s.threads p).loc ⟨.stay, { s.data with
      device := { s.data.device with irq := false } }, .intr .acquire⟩)
    (hs : s.apply p ⟨.stay, { s.data with device := { s.data.device with irq := false } },
      .intr .acquire⟩ = some s') : Inv ((s, .run p .interrupt) :: tr) q s' := by
  have happ := applied hs
  have hnone := h.tokens.irq hirq
  have hbusy : s.data.device.busy = false := Bool.eq_false_iff.mpr fun hbusy => by
    rw [(h.tokens.busy hbusy).1] at hirq
    cases hirq
  have hserves : serving (s'.threads p).loc = true := by rw [happ.loc]; rfl
  have honly : ∀ r, serving (s'.threads r).loc = true → r = p := by
    intro r hr
    by_contra hrp
    rw [happ.others r hrp, hnone] at hr
    cases hr
  have hout : Outstanding s' := .inr (.inr ⟨p, hserves⟩)
  obtain ⟨x, hx⟩ := h.pending (.inr (.inl hirq))
  refine ⟨h.base.apply hm hs, ?_, h.nodup, ?_, ?_, fun r => ?_, ⟨fun hb => ?_, fun hi => ?_,
    fun r r' hr hr' => (honly r hr).trans (honly r' hr').symm⟩,
    fun _ => ⟨x, hx.head, ?_, fun r => ?_, fun _ => ?_⟩, fun hnot => absurd hout hnot⟩
  · rw [happ.data]
    exact h.chain
  · simpa [appended, completed, appendedBy, completedBy] using h.order
  · refine requests_of_applied happ h.requests fun b' _ hq => ?_
    rw [hl] at hq
    cases hq
  · rw [happ.data]
    by_cases hr : r = p
    · rw [hr, happ.loc]
      trivial
    · rw [happ.others r hr]
      exact (h.known r).congr (fun _ _ => ⟨Iff.rfl, rfl⟩) (.inr ⟨rfl, rfl, rfl⟩)
  · rw [happ.data] at hb
    exact absurd (hbusy.symm.trans hb) (by simp)
  · rw [happ.data] at hi
    cases hi
  · rw [happ.data]
    exact hx.cmd
  · by_cases hr : r = p
    · rw [hr, happ.loc]
      exact id
    · rw [happ.others r hr]
      exact hx.started r
  · rw [happ.data]
    exact hx.result hbusy

omit [DecidableEq P] in
omit [DecidableEq B] in
/-- A step that moves no thread and changes only buffers that no request is for. -/
theorem Inv.still (h : Inv tr q s) {tr' : List (System P B × Act P B)} {bufs : B → Buf}
    (hbase : Base s') (hdata : s'.data = { s.data with bufs := bufs }) (hlock : s'.lock = s.lock)
    (hloc : ∀ r, (s'.threads r).loc = (s.threads r).loc)
    (hbufs : ∀ r b, active (s.threads r).loc = some b → bufs b = s.data.bufs b)
    (horder : appended tr' = completed tr' ++ q) : Inv tr' q s' := by
  have houtstanding : Outstanding s' ↔ Outstanding s := by simp only [Outstanding, hdata, hloc]
  refine ⟨hbase, by simpa only [hdata] using h.chain, h.nodup, horder, by simpa only [hloc] using
    h.requests, fun r => ?_, ⟨?_, ?_, by simpa only [hloc] using h.tokens.unique⟩, fun hout => ?_,
    fun hout => by simpa only [hloc, hlock] using h.starts (mt houtstanding.mpr hout)⟩
  · rw [hdata, hloc]
    exact (h.known r).congr (fun b hb => ⟨Iff.rfl, hbufs r b hb⟩) (.inr ⟨rfl, rfl, rfl⟩)
  · simpa only [hdata, hloc] using h.tokens.busy
  · simpa only [hdata, hloc] using h.tokens.irq
  · obtain ⟨x, hx⟩ := h.pending (houtstanding.mp hout)
    obtain ⟨r, hr⟩ := h.requests x (mem_of_mem_head? hx.head)
    refine ⟨x, hx.head, ?_, by simpa only [hloc] using hx.started, by simpa only [hdata] using
      hx.result⟩
    simpa only [hdata, hbufs r x (active_of_queued hr)] using hx.cmd

theorem Inv.fill (h : Inv tr q s) {buf : Buf} (hl : (s.threads p).loc = .idle)
    (hlock : s.data.lock b = none ∨ s.data.lock b = some p)
    (hm : Moves p s.data (.fill b buf) (s.threads p).loc
      ⟨.stay, { s.data with bufs := update s.data.bufs b buf }, .idle⟩)
    (hs : s.apply p ⟨.stay, { s.data with bufs := update s.data.bufs b buf }, .idle⟩ =
      some s') : Inv ((s, .run p (.fill b buf)) :: tr) q s' := by
  have happ := applied hs
  refine h.still (h.base.apply hm hs) happ.data happ.lock (fun r => ?_)
    (fun r b' hr => update_of_ne ?_ _ _) (by simpa [appended, completed, appendedBy, completedBy]
      using h.order)
  · by_cases hr : r = p
    · rw [hr, happ.loc, hl]
    · exact happ.others r hr
  · rintro rfl
    have howned := h.base.owned r b' hr
    rcases hlock with hlock | hlock
    · rw [hlock] at howned
      cases howned
    · rw [hlock] at howned
      cases howned
      rw [hl] at hr
      cases hr

theorem result_finish (d : Device) : d.finish.Result := by
  unfold Device.Result Device.finish
  cases hw : d.cmd.write <;> simp [hw]

theorem result_fail (d : Device) (junk : Block) : (d.fail junk).Result := by
  unfold Device.Result Device.fail
  cases hw : d.cmd.write <;> simp

omit [DecidableEq P] [DecidableEq B] in
theorem Inv.device (h : Inv tr q s) {dev : Device} (hbusy : s.data.device.busy = true)
    (hdone : dev.busy = false) (hirq : dev.irq = true) (hcmd : dev.cmd = s.data.device.cmd)
    (hresult : dev.Result) (happended : appendedBy s a = none)
    (hcompleted : completedBy s a = none) :
    Inv ((s, a) :: tr) q { s with data := { s.data with device := dev } } := by
  have hnone := (h.tokens.busy hbusy).2
  obtain ⟨x, hx⟩ := h.pending (.inl hbusy)
  refine ⟨h.base.device dev, h.chain, h.nodup, ?_, h.requests, fun r => ?_, ⟨fun hb => ?_,
    fun _ => hnone, h.tokens.unique⟩, fun _ => ⟨x, hx.head, ?_, hx.started, fun _ => hresult⟩,
    fun hnot => absurd (.inr (.inl hirq)) hnot⟩
  · simpa [appended, completed, happended, hcompleted] using h.order
  · exact (h.known r).congr (fun _ _ => ⟨Iff.rfl, rfl⟩) (.inr ⟨rfl, rfl, rfl⟩)
  · exact absurd (hdone.symm.trans hb) (by simp)
  · exact hcmd.trans hx.cmd

omit [DecidableEq B] in
theorem Inv.kill (h : Inv tr q s) (p : P) : Inv ((s, .kill p) :: tr) q (s.kill p) :=
  h.still (h.base.kill p) rfl rfl (fun r => (killed s p r).1) (fun _ _ _ => rfl)
    (by simpa [appended, completed, appendedBy, completedBy] using h.order)

omit [DecidableEq B] in
theorem quiet_starts (hserving : serving l' = serving l) (hl : ∀ h, Starts h l)
    (hl' : ∀ h, Starts h l') : Quiet q q l l' :=
  ⟨hserving, fun _ => id, fun h _ _ => hl h,
    fun h _ _ => ⟨hl' h, critical_of_starts (hl' h)⟩, .inl⟩

omit [DecidableEq B] in
theorem quiet_leaves (hserving : serving l' = serving l)
    (hl : ∀ h, q.head? = some h → ¬ Starts h l) (hl' : ∀ h, ¬ Starts h l') : Quiet q q l l' :=
  ⟨hserving, fun _ => id, fun h _ hstart => absurd hstart (hl' h),
    fun h hh hstart => absurd hstart (hl h hh), .inl⟩

omit [DecidableEq P] [DecidableEq B] in
theorem Walk.advance {pp : Link B} {x : B} (h : Walk q d pp) (hload : d.load pp = some x) :
    Walk q d (some x) := by
  obtain ⟨pre, rest, rfl, -, hchain⟩ := h
  rw [hload] at hchain
  obtain ⟨rest', rfl, hrest⟩ := hchain.pop
  exact ⟨pre ++ [x], rest', by simp, by simp, hrest⟩

omit [DecidableEq P] in
omit [DecidableEq B] in
theorem Inv.not_mem (h : Inv tr q s) (hl : (s.threads p).loc = .idle)
    (hlock : s.data.lock b = some p) : b ∉ q := by
  intro hb
  obtain ⟨r, hr⟩ := h.requests b hb
  have howned := h.base.owned r b (active_of_queued hr)
  rw [hlock] at howned
  cases howned
  rw [hl] at hr
  cases hr

theorem Inv.run (h : Inv tr q s) (hm : Moves p s.data call (s.threads p).loc m)
    (hs : s.apply p m = some s') : ∃ q', Inv ((s, .run p call) :: tr) q' s' := by
  have hm' := hm
  have hknown := h.known p
  generalize hl : (s.threads p).loc = l at hm hknown
  cases hm with
  | acquiresleep b hfree | releasesleep b hlock =>
    refine ⟨q, h.control hm' hs rfl rfl rfl rfl ?_ (by simp [hl, queued]) trivial rfl rfl⟩
    rw [hl]
    exact quiet_refl rfl (fun _ => id) (fun _ => id)
  | fill b buf hlock => exact ⟨q, h.fill hl hlock hm' hs⟩
  | iderw b hlock hready =>
    exact ⟨q, h.control hm' hs rfl rfl rfl rfl (hl ▸ quiet_refl rfl (fun _ => id) (fun _ => id))
      (by simp [hl, queued]) ⟨h.not_mem hl hlock, rfl, hready⟩ rfl rfl⟩
  | interrupt hirq => exact ⟨q, h.interrupt hl hirq hm' hs⟩
  | append b was => exact ⟨q, h.append hl hm' hs⟩
  | link b was pp hload => exact ⟨q ++ [b], h.link hl hload hm' hs⟩
  | take b hhead =>
    obtain ⟨rest, -, hrest⟩ := h.take hl hhead hm' hs
    exact ⟨rest, hrest⟩
  | start b was d' hhead hstart =>
    exact ⟨q, h.started hhead hstart hm' hs (by rw [hl]; rfl) (fun _ => id) (by rw [hl]; rfl)
      (by simp [hl, queued]) (.inl hknown) (by simp [appendedBy, hl]) (by simp [completedBy, hl])⟩
  | startNext b d' hhead hstart =>
    exact ⟨q, h.started hhead hstart hm' hs (by rw [hl]; trivial) (fun _ => id) (by rw [hl]; rfl)
      (by simp [hl, queued]) trivial (by simp [appendedBy, hl]) (by simp [completedBy, hl])⟩
  | spurious hhead =>
    -- an interrupt is served only while a request is queued
    obtain ⟨x, hx⟩ := h.pending (.inr (.inr ⟨p, by rw [hl]; rfl⟩))
    have hnil : q = [] := by
      have hchain := h.chain
      rw [hhead] at hchain
      exact hchain.eq_nil
    rw [hnil] at hx
    cases hx.head
  | skip b was hhead =>
    refine ⟨q, h.control hm' hs rfl rfl rfl rfl (hl ▸ quiet_leaves rfl (fun x hx hstart => ?_)
      (fun _ => id)) (by simp [hl, queued]) (.inl hknown) (by simp [appendedBy, hl])
      (by simp [completedBy, hl])⟩
    cases hq : q with
    | nil =>
      rw [hq] at hx
      cases hx
    | cons y rest =>
      have hchain := h.chain
      rw [hq] at hx hchain
      cases hx
      cases hhd : s.data.idequeue with
      | none =>
        rw [hhd] at hchain
        exact hchain
      | some z =>
        rw [hhd] at hchain
        obtain ⟨rfl, -⟩ := hchain
        exact hhead (hhd.trans (congrArg some (Eq.symm hstart)))
  | startNone hhead =>
    have hnil : q = [] := by
      have hchain := h.chain
      rw [hhead] at hchain
      exact hchain.eq_nil
    refine ⟨q, h.control hm' hs rfl rfl rfl rfl (hl ▸ quiet_leaves rfl (fun x hx => ?_)
      (fun _ => id)) (by simp [hl, queued]) trivial (by simp [appendedBy, hl])
      (by simp [completedBy, hl])⟩
    rw [hnil] at hx
    cases hx
  | walk b was pp x hload =>
    obtain ⟨hbq, hwaits, hend, hwalk⟩ := hknown
    exact ⟨q, h.control hm' hs rfl rfl rfl rfl (hl ▸ quiet_refl rfl (fun _ => id) (fun _ => id))
      (by simp [hl, queued]) ⟨hbq, hwaits, hend, hwalk.advance hload⟩
      (by simp [appendedBy, hl, hload]) (by simp [completedBy, hl])⟩
  | ready b was hready =>
    -- the test succeeds only after the request has completed
    have hdone : b ∉ q ∧ (s.data.bufs b).Completes was := by
      rcases hknown with ⟨-, hbuf, hnot⟩ | hdone
      · rw [← hbuf, hready] at hnot
        cases hnot
      · exact hdone
    refine ⟨q, h.control hm' hs rfl rfl rfl rfl (hl ▸ quiet_refl rfl (fun _ => id) (fun _ => id))
      (fun b' hb' hq => ?_) hdone (by simp [appendedBy, hl]) (by simp [completedBy, hl])⟩
    rw [hl] at hq
    cases hq
    exact absurd hb' hdone.1
  | wakeTable b | wakeup1 b | wakeRelease =>
    exact ⟨q, h.control hm' hs rfl rfl rfl rfl (hl ▸ quiet_starts rfl (fun _ => trivial)
      (fun _ => trivial)) (by simp [hl, queued]) trivial (by simp [appendedBy, hl])
      (by simp [completedBy, hl])⟩
  | intrAcquire | intrRelease | leave b was =>
    exact ⟨q, h.control hm' hs rfl rfl rfl rfl (hl ▸ quiet_refl rfl (fun _ => id) (fun _ => id))
      (by simp [hl, queued]) trivial (by simp [appendedBy, hl]) (by simp [completedBy, hl])⟩
  | _ =>
    exact ⟨q, h.control hm' hs rfl rfl rfl rfl (hl ▸ quiet_refl rfl (fun _ => id) (fun _ => id))
      (by simp [hl, queued]) hknown (by simp [appendedBy, hl]) (by simp [completedBy, hl])⟩

theorem finish_fields (d : Device) :
    d.finish.busy = false ∧ d.finish.irq = true ∧ d.finish.err = false ∧ d.finish.cmd = d.cmd := by
  unfold Device.finish
  split <;> exact ⟨rfl, rfl, rfl, rfl⟩

theorem fail_fields (d : Device) (junk : Block) : (d.fail junk).busy = false ∧
    (d.fail junk).irq = true ∧ (d.fail junk).cmd = d.cmd := by
  unfold Device.fail
  split <;> exact ⟨rfl, rfl, rfl⟩

theorem Inv.step (h : Inv tr q s) (hs : step s a = .ok () s') : ∃ q', Inv ((s, a) :: tr) q' s' := by
  cases a with
  | run p call =>
    obtain ⟨m, hm, happly⟩ := step_run hs
    exact h.run hm happly
  | finish =>
    simp only [Ide.step] at hs
    split at hs
    · case isTrue hbusy =>
      cases hs
      obtain ⟨hdone, hirq, -, hcmd⟩ := finish_fields s.data.device
      exact ⟨q, h.device hbusy hdone hirq hcmd (result_finish _) rfl rfl⟩
    · cases hs
  | fail junk =>
    simp only [Ide.step] at hs
    split at hs
    · case isTrue hbusy =>
      cases hs
      obtain ⟨hdone, hirq, hcmd⟩ := fail_fields s.data.device junk
      exact ⟨q, h.device hbusy hdone hirq hcmd (result_fail _ _) rfl rfl⟩
    · cases hs
  | kill p =>
    cases hs
    exact ⟨q, h.kill p⟩

variable {disk : Nat × Nat → Block} {havedisk1 : Bool}

omit [DecidableEq P] in
omit [DecidableEq B] in
theorem inv_boot : Inv [] [] (boot disk havedisk1 : System P B) := by
  refine ⟨⟨⟨?_, ?_, ?_⟩, ?_, ?_, ?_⟩, trivial, nodup_nil, rfl, ?_, fun _ => trivial,
    ⟨?_, ?_, ?_⟩, ?_, fun _ => .inl rfl⟩
  · simp [boot, roles, critical]
  · simp [boot, roles, tabled]
  · simp [boot]
  · simp [NoLost, Waiting, boot, roles, committed]
  · simp [boot]
  · simp [boot, active]
  · simp
  · simp [boot]
  · simp [boot]
  · simp [boot, serving]
  · simp [boot, Outstanding, serving]

theorem inv_of_trace (htr : Trace step (boot disk havedisk1) tr s) : ∃ q, Inv tr q s :=
  Trace.invariant (I := fun tr s => ∃ q, Inv tr q s) ⟨[], inv_boot⟩
    (fun _ _ _ _ _ h hs => h.elim fun _ h => h.step hs) htr

end Xv6.Ide
