import Xv6.Ide.Queue

/-!
# What a completed request leaves in its buffer

While the disk reports no error, and no two requests under way name the same block, the
buffer of a completed request holds what the disk holds.
-/

namespace Xv6.Ide

open Lib Monitor Function List

variable {P B : Type} [DecidableEq P] [DecidableEq B] {q : List B} {d : Data P B}
  {s s' : System P B} {p : P} {call : Call B} {m : DriverMove P B} {a : Act P B}
  {tr : List (System P B × Act P B)} {disk : Nat × Nat → Block} {havedisk1 : Bool}

def Unaliased (s : System P B) : Prop :=
  ∀ p r b b', active (s.threads p).loc = some b → active (s.threads r).loc = some b' → b ≠ b' →
    (s.data.bufs b).place ≠ (s.data.bufs b').place

def Synced (d : Data P B) (b : B) : Prop := d.device.disk (d.bufs b).place = (d.bufs b).data

def Fresh (s : System P B) : Prop :=
  ∀ p b, active (s.threads p).loc = some b → (s.data.bufs b).ready = true → Synced s.data b

omit [DecidableEq P] in
theorem moves_disk (h : Moves p d call l m) :
    m.data.device.disk = d.device.disk ∧ m.data.device.err = d.device.err := by
  cases h
  case link b was pp hload => cases pp <;> exact ⟨rfl, rfl⟩
  case start b was d' hhead hstart | startNext b d' hhead hstart =>
    obtain ⟨-, rfl⟩ := idestart_ok hstart
    exact ⟨rfl, rfl⟩
  all_goals exact ⟨rfl, rfl⟩

omit [DecidableEq P] in
theorem moves_bufs (h : Moves p d call l m) (b : B) : m.data.bufs b = d.bufs b ∨
    (∃ buf, call = .fill b buf ∧ m.data = { d with bufs := update d.bufs b buf }) ∨
    (l = .intr .take ∧ d.idequeue = some b ∧ m.data = d.take b) := by
  cases h
  case fill b' buf hlock =>
    by_cases hbb : b = b'
    · exact .inr (.inl ⟨buf, by rw [hbb], by rw [hbb]⟩)
    · exact .inl (update_of_ne hbb _ _)
  case take b' hhead =>
    by_cases hbb : b = b'
    · exact .inr (.inr ⟨rfl, by rw [hbb, hhead], by rw [hbb]⟩)
    · exact .inl (update_of_ne hbb _ _)
  case link b' was pp hload => cases pp <;> exact .inl rfl
  case start b' was d' hhead hstart | startNext b' d' hhead hstart =>
    obtain ⟨-, rfl⟩ := idestart_ok hstart
    exact .inl rfl
  all_goals exact .inl rfl

omit [DecidableEq P] in
theorem Inv.synced_take (h : Inv tr q s) {b : B} (hl : (s.threads p).loc = .intr .take)
    (hhead : s.data.idequeue = some b) (herr : s.data.device.err = false) :
    Synced (s.data.take b) b := by
  have hserves : serving (s.threads p).loc = true := by rw [hl]; rfl
  obtain ⟨x, hx⟩ := h.pending (.inr (.inr ⟨p, hserves⟩))
  obtain ⟨rest, hq, -⟩ := head_of_chain h.chain hhead
  rw [hq] at hx
  obtain rfl : b = x := Option.some.inj hx.head
  have hbusy : s.data.device.busy = false := Bool.eq_false_iff.mpr fun hbusy => by
    rw [(h.tokens.busy hbusy).2 p] at hserves
    cases hserves
  have hresult := hx.result hbusy herr
  rw [hx.cmd, command] at hresult
  cases hdirty : (s.data.bufs b).dirty with
  | true =>
    rw [hdirty] at hresult
    simpa [Synced, Data.take, hdirty, Buf.place] using hresult
  | false =>
    rw [hdirty] at hresult
    simp only [Bool.false_eq_true, if_false] at hresult
    simpa [Synced, Data.take, hdirty, herr, Buf.place] using hresult.symm

omit [DecidableEq P] in
omit [DecidableEq B] in
theorem Inv.head_waits (h : Inv tr q s) {x : B} (hx : q.head? = some x) :
    ∃ p, active (s.threads p).loc = some x ∧ (s.data.bufs x).ready = false := by
  have hmem := mem_of_mem_head? hx
  obtain ⟨p, hp⟩ := h.requests x hmem
  refine ⟨p, active_of_queued hp, ?_⟩
  have hknown := h.known p
  revert hknown hp
  generalize (s.threads p).loc = l
  cases l with
  | idle | intr pt | returned b was => exact fun hq => nomatch hq
  | rw b was pt =>
    cases pt with
    | acquire | append | walk pp | release => exact fun hq => nomatch hq
    | start =>
      intro hq hknown
      cases hq
      rw [hknown.2.1]
      exact hknown.2.2
    | _ =>
      intro hq hknown
      cases hq
      rcases hknown with ⟨-, hbuf, hnot⟩ | ⟨hnot, -⟩
      · rw [hbuf]
        exact hnot
      · exact absurd hmem hnot

theorem Inv.fresh_run (h : Inv tr q s) (herr : s.data.device.err = false) (hf : Fresh s)
    (hm : Moves p s.data call (s.threads p).loc m) (hs : s.apply p m = some s') : Fresh s' := by
  intro r b hr hready
  have happ := applied hs
  rw [happ.data] at hready ⊢
  have hdisk := (moves_disk hm).1
  rcases moves_bufs hm b with hbuf | ⟨buf, hcall, -⟩ | ⟨hl, hhead, hdata⟩
  · rw [hbuf] at hready
    have hactive : active (s.threads r).loc = some b := by
      by_cases hrp : r = p
      · subst hrp
        rw [happ.loc] at hr
        rcases active_moves hm hr with ⟨-, hidle⟩ | hactive
        · generalize (s.threads r).loc = l at hm hidle
          subst hidle
          cases hm <;> simp_all [active]
        · exact hactive
      · rwa [happ.others r hrp] at hr
    have hsynced := hf r b hactive hready
    rwa [Synced, ← hdisk, ← hbuf] at hsynced
  · -- a buffer is filled only outside a request
    have hbase := h.base.apply hm hs
    have howned := hbase.owned r b hr
    generalize hl : (s.threads p).loc = l at hm
    rw [hcall] at hm
    cases hm with
    | fill b' buf' hlock =>
      rw [happ.data] at howned
      by_cases hrp : r = p
      · rw [hrp, happ.loc] at hr
        cases hr
      · rcases hlock with hlock | hlock
        · exact absurd (hlock.symm.trans howned) (by simp)
        · exact absurd (Option.some.inj (hlock.symm.trans howned)) (Ne.symm hrp)
  · rw [hdata]
    exact h.synced_take hl hhead herr

theorem Inv.fresh_step (h : Inv tr q s) (herr : s.data.device.err = false) (hun : Unaliased s)
    (hf : Fresh s) (hfail : ∀ junk, a ≠ .fail junk) (hs : Ide.step s a = .ok () s') :
    Fresh s' ∧ s'.data.device.err = false := by
  cases a with
  | run p call =>
    obtain ⟨m, hm, happly⟩ := step_run hs
    refine ⟨h.fresh_run herr hf hm happly, ?_⟩
    rw [(applied happly).data, (moves_disk hm).2]
    exact herr
  | finish =>
    simp only [Ide.step] at hs
    split at hs
    · case isTrue hbusy =>
      cases hs
      refine ⟨fun r b hr hready => ?_, (finish_fields _).2.2.1⟩
      obtain ⟨x, hx⟩ := h.pending (.inl hbusy)
      obtain ⟨p, hp, hwaits⟩ := h.head_waits hx.head
      have hbx : x ≠ b := by
        rintro rfl
        exact absurd (hwaits.symm.trans hready) (by simp)
      have hplace := hun p r x b hp hr hbx
      have hsame := disk_finish s.data.device (x := (s.data.bufs b).place)
        (.inl (by rw [hx.cmd]; exact hplace))
      exact hsame.trans (hf r b hr hready)
    · cases hs
  | fail junk => exact absurd rfl (hfail junk)
  | kill p =>
    cases hs
    refine ⟨fun r b hr hready => ?_, herr⟩
    rw [(killed s p r).1] at hr
    exact hf r b hr hready

def NoErrors (tr : List (System P B × Act P B)) : Prop := ∀ x ∈ tr, ∀ junk, x.2 ≠ .fail junk

theorem fresh_of_trace (htr : Trace step (boot disk havedisk1) tr s) (hok : NoErrors tr)
    (hun : ∀ x ∈ tr, Unaliased x.1) : Fresh s := by
  suffices h : Fresh s ∧ s.data.device.err = false from h.1
  refine Trace.invariant (I := fun tr s => NoErrors tr → (∀ x ∈ tr, Unaliased x.1) →
    Fresh s ∧ s.data.device.err = false) ?_ ?_ htr hok hun
  · intro _ _
    refine ⟨fun p b hp => ?_, rfl⟩
    cases hp
  · intro tr s a s' htr ih hs hok hun
    obtain ⟨hf, herr⟩ := ih (fun x hx => hok x (mem_cons_of_mem _ hx))
      (fun x hx => hun x (mem_cons_of_mem _ hx))
    obtain ⟨q, h⟩ := inv_of_trace htr
    exact h.fresh_step herr (hun _ mem_cons_self) hf (hok _ mem_cons_self) hs

/-- In every run: the queue is the appended requests that have not completed, in order and
each once; while `idelock` is free the disk has the command for the head, and it never works
on anything else; what `iderw` returns is valid, clean and off the queue, is what was to be
written if it was dirty, and without errors is what the disk holds; and while the locks are
free nobody sleeps on a completed buffer. -/
theorem requests_complete (htr : Trace step (boot disk havedisk1) tr s) :
    ∃ q, Chain s.data.qnext s.data.idequeue q ∧ q.Nodup ∧ appended tr = completed tr ++ q ∧
      (s.lock = none → q ≠ [] → Outstanding s) ∧
      (Outstanding s → ∃ h, q.head? = some h ∧
        s.data.device.cmd = command (s.data.bufs h)) ∧
      (∀ p b was, (s.threads p).loc = .returned b was →
        (s.data.bufs b).valid = true ∧ (s.data.bufs b).dirty = false ∧ b ∉ q ∧
        (s.data.bufs b).place = was.place ∧
        (was.dirty = true → (s.data.bufs b).data = was.data) ∧
        (NoErrors tr → (∀ x ∈ tr, Unaliased x.1) →
          s.data.device.disk was.place = (s.data.bufs b).data)) ∧
      (s.lock = none → s.table = none → ∀ p b, (s.threads p).sleeping = some b →
        ¬ ((s.data.bufs b).valid = true ∧ (s.data.bufs b).dirty = false)) := by
  obtain ⟨q, h⟩ := inv_of_trace htr
  refine ⟨q, h.chain, h.nodup, h.order, fun hfree hq => ?_, fun hout => ?_,
    fun p b was hl => ?_, fun hfree _ p b hp => ?_⟩
  · by_contra hout
    rcases h.starts hout with hnil | ⟨x, p, -, hlock, -⟩
    · exact hq hnil
    · rw [hfree] at hlock
      cases hlock
  · obtain ⟨x, hx⟩ := h.pending hout
    exact ⟨x, hx.head, hx.cmd⟩
  · have hknown := h.known p
    rw [hl] at hknown
    obtain ⟨hbq, hdone⟩ := hknown
    have hready := hdone.ready
    rw [Buf.ready, Bool.and_eq_true, Bool.not_eq_true'] at hready
    have hplace : (s.data.bufs b).place = was.place := by
      rw [Buf.place, Buf.place, hdone.dev, hdone.blockno]
    refine ⟨hready.1, hready.2, hbq, hplace, hdone.data, fun hok hun => ?_⟩
    rw [← hplace]
    exact fresh_of_trace htr hok hun p b (by rw [hl]; rfl) hdone.ready
  · have hblocked := h.base.noLost.blocked hfree hp
    rintro ⟨hvalid, hdirty⟩
    rw [Blocked, Buf.ready, hvalid, hdirty] at hblocked
    cases hblocked

instance [Fintype P] [Fintype B] (s : System P B) : Decidable (Unaliased s) :=
  inferInstanceAs (Decidable (∀ p r b b', active (s.threads p).loc = some b →
    active (s.threads r).loc = some b' → b ≠ b' → (s.data.bufs b).place ≠ (s.data.bufs b').place))

/-- The second request is queued behind the first one. -/
def writeTwo : List (Act (Fin 3) Bool) :=
  [.run 0 (.acquiresleep false), .run 0 (.fill false ⟨1, 3, true, true, 7⟩),
    .run 0 (.iderw false)] ++ List.replicate 8 (.run 0 .proceed) ++ [.run 1 (.acquiresleep true),
    .run 1 (.fill true ⟨1, 5, true, true, 9⟩), .run 1 (.iderw true)] ++
  List.replicate 9 (.run 1 .proceed) ++ [.finish, .run 2 .interrupt] ++
  List.replicate 7 (.run 2 .proceed) ++ List.replicate 5 (.run 0 .proceed) ++
  [.finish, .run 2 .interrupt] ++ List.replicate 7 (.run 2 .proceed) ++
  List.replicate 5 (.run 1 .proceed)

def wroteTwo (s : System (Fin 3) Bool) : Bool :=
  match (s.threads 0).loc, (s.threads 1).loc with
  | .returned b was, .returned b' was' => decide (b = false ∧ was = ⟨1, 3, true, true, 7⟩ ∧
      b' = true ∧ was' = ⟨1, 5, true, true, 9⟩)
  | _, _ => false

theorem writeTwo_completes : ∃ tr s, Trace step (boot (fun _ => 0) true) tr s ∧
    (s.threads (0 : Fin 3)).loc = .returned false ⟨1, 3, true, true, 7⟩ ∧
    (s.threads (1 : Fin 3)).loc = .returned true ⟨1, 5, true, true, 9⟩ ∧
    s.data.device.disk (1, 3) = 7 ∧ s.data.device.disk (1, 5) = 9 := by
  obtain ⟨tr, s, htr, hacts, hall⟩ := Trace.of_record step (boot (fun _ => 0) true) writeTwo
    (fun tr s => tr.all (fun x => decide (Unaliased x.1)) && wroteTwo s) (by decide +kernel)
  rw [Bool.and_eq_true, all_eq_true] at hall
  obtain ⟨hun, hgood⟩ := hall
  have hok : NoErrors tr := by
    intro x hx junk heq
    have hmem : x.2 ∈ writeTwo.reverse := hacts ▸ mem_map_of_mem hx
    rw [heq] at hmem
    simp [writeTwo] at hmem
  obtain ⟨q, -, -, -, -, -, hreturned, -⟩ := requests_complete htr
  unfold wroteTwo at hgood
  split at hgood
  · case h_1 b was b' was' h0 h1 =>
    obtain ⟨rfl, rfl, rfl, rfl⟩ := of_decide_eq_true hgood
    have hall : ∀ x ∈ tr, Unaliased x.1 := fun x hx => of_decide_eq_true (hun x hx)
    obtain ⟨-, -, -, -, hdata0, hdisk0⟩ := hreturned 0 _ _ h0
    obtain ⟨-, -, -, -, hdata1, hdisk1⟩ := hreturned 1 _ _ h1
    exact ⟨tr, s, htr, h0, h1, (hdisk0 hok hall).trans (hdata0 rfl),
      (hdisk1 hok hall).trans (hdata1 rfl)⟩
  · cases hgood

end Xv6.Ide
