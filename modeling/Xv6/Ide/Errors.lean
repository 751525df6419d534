import Xv6.Ide.Cache

/-!
# Disk errors

`ideintr` marks a buffer valid and clean whatever the status of its command, so a failed read
leaves stale data that is served as good and a failed write is lost.  Without errors every
valid clean buffer in the cache holds what the disk holds.
-/

namespace Xv6.Ide

open Lib Monitor Function List

variable {P B : Type} [DecidableEq P] [DecidableEq B] {c c' : Cache P B} {p : P} {b : B}
  {disk : Nat × Nat → Block} {havedisk1 : Bool} {uses : P → Use B} {u : Use B}

def Use.buffer : Use B → Option B
  | .out => none
  | .using _ b _ _ => some b

def Use.holds : Use B → Option B
  | .out | .using .locking _ _ _ | .using .released _ _ _ => none
  | .using _ b _ _ => some b

/-- The buffer the process has passed to `iderw`. -/
def Use.requests : Use B → Option B
  | .using .reading b _ _ | .using .writing b _ _ => some b
  | _ => none

def Use.dirties : Use B → Option B
  | .using .marked b _ _ | .using .writing b _ _ => some b
  | _ => none

def Live (c : Cache P B) (b : B) : Prop := 0 < c.refcnt b ∨ (c.ide.data.bufs b).valid = true

structure Coherent (c : Cache P B) : Prop where
  driver : ∃ tr q, Inv tr q c.ide
  err : c.ide.data.device.err = false
  refs : ∃ F : B → Finset P, ∀ b, c.refcnt b = (F b).card ∧
    ∀ p, p ∈ F b ↔ (c.uses p).buffer = some b
  key : ∀ p st b dev blockno, c.uses p = .using st b dev blockno →
    (c.ide.data.bufs b).dev = dev ∧ (c.ide.data.bufs b).blockno = blockno
  holds : ∀ p b, c.ide.data.lock b = some p ↔ (c.uses p).holds = some b
  busy : ∀ p b, active (c.ide.threads p).loc = some b ↔ (c.uses p).requests = some b
  dirty : ∀ b, (c.ide.data.bufs b).dirty = true → ∃ p, (c.uses p).dirties = some b
  live : ∀ b, Live c b → c.lru.find? (fun b' =>
    (c.ide.data.bufs b').caches (c.ide.data.bufs b).dev (c.ide.data.bufs b).blockno) = some b
  dev : ∀ b, Live c b → (c.ide.data.bufs b).dev ≤ 1
  synced : ∀ b, (c.ide.data.bufs b).ready = true → Synced c.ide.data b

namespace Coherent

omit [DecidableEq P] in
omit [DecidableEq B] in
theorem refcnt_pos (h : Coherent c) (hp : (c.uses p).buffer = some b) : 0 < c.refcnt b := by
  obtain ⟨F, hF⟩ := h.refs
  rw [(hF b).1, Finset.card_pos]
  exact ⟨p, ((hF b).2 p).mpr hp⟩

omit [DecidableEq B] in
theorem buffer_of_holds (h : u.holds = some b) : u.buffer = some b := by
  revert h
  unfold Use.holds
  split <;> simp [Use.buffer]

omit [DecidableEq B] in
theorem holds_of_requests (h : u.requests = some b) : u.holds = some b := by
  revert h
  unfold Use.requests
  split <;> simp [Use.holds]

omit [DecidableEq B] in
theorem holds_of_dirties (h : u.dirties = some b) : u.holds = some b := by
  revert h
  unfold Use.dirties
  split <;> simp [Use.holds]

omit [DecidableEq P] in
omit [DecidableEq B] in
theorem live_of_active (h : Coherent c) (hp : active (c.ide.threads p).loc = some b) : Live c b :=
  .inl (h.refcnt_pos (buffer_of_holds (holds_of_requests ((h.busy p b).mp hp))))

omit [DecidableEq P] in
omit [DecidableEq B] in
theorem place_ne (h : Coherent c) {b' : B} (hb : Live c b) (hb' : Live c b') (hne : b ≠ b') :
    (c.ide.data.bufs b).place ≠ (c.ide.data.bufs b').place := by
  intro heq
  have hdev := h.dev b hb
  have hdev' := h.dev b' hb'
  have hd : (c.ide.data.bufs b).dev = (c.ide.data.bufs b').dev := by
    have := congrArg Prod.fst heq
    simp only [Buf.place] at this
    omega
  have hn : (c.ide.data.bufs b).blockno = (c.ide.data.bufs b').blockno := congrArg Prod.snd heq
  have hfind := h.live b hb
  rw [hd, hn, h.live b' hb'] at hfind
  exact hne (Option.some.inj hfind).symm

omit [DecidableEq P] in
omit [DecidableEq B] in
theorem clean (h : Coherent c) (hp : (c.uses p).holds = some b)
    (hnot : (c.uses p).dirties ≠ some b) : (c.ide.data.bufs b).dirty = false := by
  refine Bool.eq_false_iff.mpr fun hdirty => ?_
  obtain ⟨r, hr⟩ := h.dirty b hdirty
  have hlock := (h.holds r b).mpr (holds_of_dirties hr)
  rw [(h.holds p b).mpr hp] at hlock
  cases hlock
  exact hnot hr

end Coherent

variable {d : Data P B} {l : Pc B} {m : DriverMove P B} {call : Call B} {s' : System P B}

omit [DecidableEq P] in
/-- Inside the driver the sleep-locks stay as they are, a buffer keeps its block, and only
loses its dirty mark. -/
theorem moves_inside (hm : Moves p d call l m) (hcall : call = .proceed ∨ call = .interrupt) :
    m.data.lock = d.lock ∧ ∀ b, (m.data.bufs b).dev = (d.bufs b).dev ∧
      (m.data.bufs b).blockno = (d.bufs b).blockno ∧
      ((m.data.bufs b).dirty = true → (d.bufs b).dirty = true) := by
  cases hm
  case acquiresleep | releasesleep | fill | iderw => simp at hcall
  case take b hhead =>
    refine ⟨rfl, fun b' => ?_⟩
    by_cases hbb : b' = b
    · subst hbb
      simp [Data.take]
    · simp [Data.take, hbb]
  case link b was pp hload => cases pp <;> exact ⟨rfl, fun _ => ⟨rfl, rfl, id⟩⟩
  case start b was d' hhead hstart | startNext b d' hhead hstart =>
    obtain ⟨-, rfl⟩ := idestart_ok hstart
    exact ⟨rfl, fun _ => ⟨rfl, rfl, id⟩⟩
  all_goals exact ⟨rfl, fun _ => ⟨rfl, rfl, id⟩⟩

omit [DecidableEq P] in
theorem moves_active (hm : Moves p d call l m) (hcall : call = .proceed ∨ call = .interrupt)
    (hl : ∀ b was, l ≠ .returned b was) : active m.loc = active l := by
  cases hm
  case acquiresleep | releasesleep | fill | iderw => simp at hcall
  case leave b was => exact absurd rfl (hl b was)
  all_goals rfl

section

variable (h : Coherent c)

include h

omit [DecidableEq P] in
omit [DecidableEq B] in
theorem Coherent.live_head (hhead : c.ide.data.idequeue = some b) : Live c b := by
  obtain ⟨tr, q, hinv⟩ := h.driver
  obtain ⟨rest, rfl, -⟩ := head_of_chain hinv.chain hhead
  obtain ⟨r, hr⟩ := hinv.requests b mem_cons_self
  exact h.live_of_active (active_of_queued hr)

theorem Coherent.contents (hm : Moves p c.ide.data call (c.ide.threads p).loc m)
    (hs : c.ide.apply p m = some s') (hcall : call = .proceed ∨ call = .interrupt) :
    (∃ tr q, Inv tr q s') ∧ s'.data.device.err = false ∧ s'.data.lock = c.ide.data.lock ∧
    (∀ b, (s'.data.bufs b).dev = (c.ide.data.bufs b).dev ∧
      (s'.data.bufs b).blockno = (c.ide.data.bufs b).blockno ∧
      ((s'.data.bufs b).dirty = true → (c.ide.data.bufs b).dirty = true) ∧
      ((s'.data.bufs b).valid = true → Live c b)) ∧
    ∀ b, (s'.data.bufs b).ready = true → Synced s'.data b := by
  obtain ⟨tr, q, hinv⟩ := h.driver
  have happ := applied hs
  obtain ⟨hlock, hbufs⟩ := moves_inside hm hcall
  obtain ⟨hdisk, herr⟩ := moves_disk hm
  obtain ⟨q', hinv'⟩ := hinv.run hm hs
  rw [happ.data]
  refine ⟨⟨_, q', hinv'⟩, herr.trans h.err, hlock, fun b => ?_, fun b hready => ?_⟩
  · obtain ⟨hdev, hno, hdirty⟩ := hbufs b
    refine ⟨hdev, hno, hdirty, fun hvalid => ?_⟩
    rcases moves_bufs hm b with hbuf | ⟨buf, hfill, -⟩ | ⟨-, hhead, -⟩
    · exact .inr (hbuf ▸ hvalid)
    · rw [hfill] at hcall
      simp at hcall
    · exact h.live_head hhead
  · rcases moves_bufs hm b with hbuf | ⟨buf, hfill, -⟩ | ⟨hl, hhead, hdata⟩
    · rw [hbuf] at hready
      have hsynced := h.synced b hready
      rwa [Synced, ← hdisk, ← hbuf] at hsynced
    · rw [hfill] at hcall
      simp at hcall
    · rw [hdata]
      exact hinv.synced_take hl hhead h.err

omit [DecidableEq P] in
omit [DecidableEq B] in
/-- The cache after a step that leaves the blocks of the buffers alone, and makes valid only
buffers in use. -/
theorem Coherent.driven (hdriver : ∃ tr q, Inv tr q s') (herr : s'.data.device.err = false)
    (hbufs : ∀ b, (s'.data.bufs b).dev = (c.ide.data.bufs b).dev ∧
      (s'.data.bufs b).blockno = (c.ide.data.bufs b).blockno ∧
      ((s'.data.bufs b).valid = true → Live c b))
    (hsynced : ∀ b, (s'.data.bufs b).ready = true → Synced s'.data b)
    (hkey : ∀ p, (uses p).buffer = (c.uses p).buffer ∧ ∀ st b dev blockno,
      uses p = .using st b dev blockno → ∃ st', c.uses p = .using st' b dev blockno)
    (hholds : ∀ p b, s'.data.lock b = some p ↔ (uses p).holds = some b)
    (hbusy : ∀ p b, active (s'.threads p).loc = some b ↔ (uses p).requests = some b)
    (hdirty : ∀ b, (s'.data.bufs b).dirty = true → ∃ p, (uses p).dirties = some b) :
    Coherent { c with ide := s', uses := uses } := by
  have hlive : ∀ b, Live { c with ide := s', uses := uses } b → Live c b := by
    rintro b (hb | hb)
    · exact .inl hb
    · exact (hbufs b).2.2 hb
  refine ⟨hdriver, herr, ?_, fun p st b dev blockno hp => ?_, hholds, hbusy, hdirty,
    fun b hb => ?_, fun b hb => ?_, hsynced⟩
  · obtain ⟨F, hF⟩ := h.refs
    refine ⟨F, fun b => ⟨(hF b).1, fun p => ?_⟩⟩
    rw [(hF b).2 p, (hkey p).1]
  · obtain ⟨st', hp'⟩ := (hkey p).2 st b dev blockno hp
    rw [(hbufs b).1, (hbufs b).2.1]
    exact h.key p st' b dev blockno hp'
  · have hfind := h.live b (hlive b hb)
    simpa only [Buf.caches, (hbufs _).1, (hbufs _).2.1] using hfind
  · rw [(hbufs b).1]
    exact h.dev b (hlive b hb)

theorem Coherent.inside (hm : Moves p c.ide.data call (c.ide.threads p).loc m)
    (hs : c.ide.apply p m = some s') (hcall : call = .proceed ∨ call = .interrupt)
    (hl : ∀ b was, (c.ide.threads p).loc ≠ .returned b was) : Coherent { c with ide := s' } := by
  have happ := applied hs
  obtain ⟨hdriver, herr, hlock, hbufs, hsynced⟩ := h.contents hm hs hcall
  refine h.driven hdriver herr (fun b => ⟨(hbufs b).1, (hbufs b).2.1, (hbufs b).2.2.2⟩) hsynced
    (fun p => ⟨rfl, fun st _ _ _ hp => ⟨st, hp⟩⟩) (fun r b => ?_) (fun r b => ?_)
    (fun b hb => h.dirty b ((hbufs b).2.2.1 hb))
  · rw [hlock]
    exact h.holds r b
  · rw [← h.busy r b]
    by_cases hr : r = p
    · rw [hr, happ.loc, moves_active hm hcall hl]
    · rw [happ.others r hr]

theorem Coherent.returned {was : Buf} (hl : (c.ide.threads p).loc = .returned b was)
    (hm : Moves p c.ide.data .proceed (c.ide.threads p).loc m) (hs : c.ide.apply p m = some s') :
    Coherent { c with ide := s', uses := update c.uses p (c.uses p).returns } := by
  have happ := applied hs
  obtain ⟨hdriver, herr, hlock, hbufs, hsynced⟩ := h.contents hm hs (.inl rfl)
  have hrequests := (h.busy p b).mp (by rw [hl]; rfl)
  have hready : (c.ide.data.bufs b).dirty = false := by
    obtain ⟨tr, q, hinv⟩ := h.driver
    have hknown := hinv.known p
    rw [hl] at hknown
    have hready := hknown.2.ready
    rw [Buf.ready, Bool.and_eq_true, Bool.not_eq_true'] at hready
    exact hready.2
  have hloc : m.loc = .idle := by
    generalize (c.ide.threads p).loc = l at hl hm
    subst hl
    cases hm
    rfl
  have hreturns : (c.uses p).returns.buffer = (c.uses p).buffer ∧
      (c.uses p).returns.holds = (c.uses p).holds ∧ (c.uses p).returns.requests = none ∧
      (∀ st b dev blockno, (c.uses p).returns = .using st b dev blockno →
        ∃ st', c.uses p = .using st' b dev blockno) ∧
      ∀ x, (c.uses p).dirties = some x → x = b := by
    generalize c.uses p = u at hrequests
    unfold Use.requests at hrequests
    split at hrequests
    · cases hrequests
      exact ⟨rfl, rfl, rfl,
        fun st b dev no heq => by cases heq; exact ⟨_, rfl⟩, by simp [Use.dirties]⟩
    · cases hrequests
      exact ⟨rfl, rfl, rfl, fun st b dev no heq => by cases heq; exact ⟨_, rfl⟩,
        fun x hx => (Option.some.inj hx).symm⟩
    · cases hrequests
  obtain ⟨hbuffer, hholds, hnone, hkey, hdirties⟩ := hreturns
  refine h.driven hdriver herr (fun b => ⟨(hbufs b).1, (hbufs b).2.1, (hbufs b).2.2.2⟩) hsynced
    (fun r => ?_) (fun r x => ?_) (fun r x => ?_) (fun x hx => ?_)
  · by_cases hr : r = p
    · subst hr
      rw [update_self]
      exact ⟨hbuffer, hkey⟩
    · rw [update_of_ne hr]
      exact ⟨rfl, fun st _ _ _ hp => ⟨st, hp⟩⟩
  · rw [hlock, h.holds r x]
    by_cases hr : r = p
    · rw [hr, update_self, hholds]
    · rw [update_of_ne hr]
  · by_cases hr : r = p
    · rw [hr, update_self, happ.loc, hloc, hnone]
      simp [active]
    · rw [update_of_ne hr, happ.others r hr]
      exact h.busy r x
  · have hxd := (hbufs x).2.2.1 hx
    obtain ⟨r, hr⟩ := h.dirty x hxd
    by_cases hrp : r = p
    · rw [hrp] at hr
      rw [hdirties x hr, hready] at hxd
      cases hxd
    · exact ⟨r, by rw [update_of_ne hrp]; exact hr⟩

theorem Coherent.finish (hs : step c.ide .finish = .ok () s') : Coherent { c with ide := s' } := by
  obtain ⟨tr, q, hinv⟩ := h.driver
  obtain ⟨q', hinv'⟩ := hinv.step hs
  simp only [step] at hs
  split at hs
  · case isTrue hbusy =>
    cases hs
    refine h.driven ⟨_, q', hinv'⟩ (finish_fields _).2.2.1 (fun b => ⟨rfl, rfl, .inr⟩)
      (fun b hready => ?_) (fun p => ⟨rfl, fun st _ _ _ hp => ⟨st, hp⟩⟩) h.holds h.busy h.dirty
    -- the command is for a buffer in use that is not ready, so for another block
    obtain ⟨x, hx⟩ := hinv.pending (.inl hbusy)
    obtain ⟨r, hr, hwaits⟩ := hinv.head_waits hx.head
    have hxb : x ≠ b := by
      rintro rfl
      exact absurd (hwaits.symm.trans hready) (by simp)
    have hvalid : (c.ide.data.bufs b).valid = true := (Bool.and_eq_true_iff.mp hready).1
    have hplace := h.place_ne (h.live_of_active hr) (.inr hvalid) hxb
    have hsame := disk_finish c.ide.data.device (x := (c.ide.data.bufs b).place)
      (.inl (by rw [hx.cmd]; exact hplace))
    exact hsame.trans (h.synced b hready)
  · cases hs

omit [DecidableEq B] in
theorem Coherent.kill (p : P) : Coherent { c with ide := c.ide.kill p } := by
  obtain ⟨tr, q, hinv⟩ := h.driver
  refine h.driven ⟨_, q, hinv.kill p⟩ h.err (fun b => ⟨rfl, rfl, .inr⟩) h.synced
    (fun p => ⟨rfl, fun st _ _ _ hp => ⟨st, hp⟩⟩) h.holds (fun r b => ?_) h.dirty
  rw [(killed c.ide p r).1]
  exact h.busy r b

end

variable {dev blockno : Nat}

omit [DecidableEq B] in
/-- A process that goes on to another stage keeps its buffer. -/
theorem uses_stage {st st' : Stage} (hu : c.uses p = .using st b dev blockno) (r : P) :
    (update c.uses p (.using st' b dev blockno) r).buffer = (c.uses r).buffer ∧
      ∀ st1 b1 dev1 no1, update c.uses p (.using st' b dev blockno) r = .using st1 b1 dev1 no1 →
        ∃ st2, c.uses r = .using st2 b1 dev1 no1 := by
  by_cases hr : r = p
  · subst hr
    rw [update_self, hu]
    refine ⟨rfl, fun st1 b1 dev1 no1 heq => ?_⟩
    cases heq
    exact ⟨st, rfl⟩
  · rw [update_of_ne hr]
    exact ⟨rfl, fun st _ _ _ hp => ⟨st, hp⟩⟩

theorem Coherent.step_idle (h : Coherent c) (hcall : call ≠ .proceed)
    (hs : step c.ide (.run p call) = .ok () s') : (c.ide.threads p).loc = .idle ∧
    (∃ tr q, Inv tr q s') ∧ ∃ m, Moves p c.ide.data call .idle m ∧ Applied c.ide p m s' := by
  obtain ⟨tr, q, hinv⟩ := h.driver
  obtain ⟨q', hinv'⟩ := hinv.step hs
  obtain ⟨m, hm, happly⟩ := step_run hs
  have hl : (c.ide.threads p).loc = .idle := by
    generalize (c.ide.threads p).loc = l at hm
    cases hm <;> first | rfl | exact absurd rfl hcall
  rw [hl] at hm
  exact ⟨hl, ⟨_, q', hinv'⟩, m, hm, applied happly⟩

/-- The calls that leave the buffers alone, with the stages before and after them. -/
inductive Advances (b : B) : Call B → Stage → Stage → Prop
  | acquiresleep : Advances b (.acquiresleep b) .locking .locked
  | read : Advances b (.iderw b) .locked .reading
  | write : Advances b (.iderw b) .marked .writing
  | clean : Advances b (.releasesleep b) .read .released
  | written : Advances b (.releasesleep b) .written .released

theorem Coherent.advances (h : Coherent c) {st st' : Stage} (hadv : Advances b call st st')
    (hu : c.uses p = .using st b dev blockno) (hs : step c.ide (.run p call) = .ok () s') :
    Coherent { c with
      ide := s', uses := update c.uses p (.using st' b dev blockno) } := by
  obtain ⟨hl, hdriver, m, hm, happ⟩ := h.step_idle (by rintro rfl; cases hadv) hs
  have hdata := happ.data
  have hbufs : s'.data.bufs = c.ide.data.bufs ∧ s'.data.device = c.ide.data.device := by
    rw [hdata]
    cases hadv <;> cases hm <;> exact ⟨rfl, rfl⟩
  refine h.driven hdriver (by rw [hbufs.2]; exact h.err) (fun x => by rw [hbufs.1]; exact
    ⟨rfl, rfl, .inr⟩) (fun x hx => ?_) (uses_stage hu) (fun r x => ?_) (fun r x => ?_)
      (fun x hx => ?_)
  · rw [hbufs.1] at hx
    rw [Synced, hbufs.1, hbufs.2]
    exact h.synced x hx
  · have hold := h.holds r x
    rw [hdata]
    cases hadv <;> cases hm <;> grind [Use.holds]
  · have hold := h.busy r x
    have hloc := happ.loc
    have hothers := happ.others r
    cases hadv <;> cases hm <;> grind [Use.requests, active]
  · rw [hbufs.1] at hx
    obtain ⟨r, hr⟩ := h.dirty x hx
    refine ⟨r, ?_⟩
    cases hadv <;> grind [Use.dirties]

theorem Coherent.bwrite (h : Coherent c) {st : Stage} {data : Block}
    (hu : c.uses p = .using st b dev blockno) (hst : st = .read ∨ st = .written)
    (hs : step c.ide (.run p (.fill b { c.ide.data.bufs b with data := data, dirty := true })) =
      .ok () s') :
    Coherent { c with
      ide := s', uses := update c.uses p (.using .marked b dev blockno) } := by
  obtain ⟨hl, hdriver, m, hm, happ⟩ := h.step_idle (by simp) hs
  cases hm with
  | fill _ _ hlock =>
  have hdata := happ.data
  have hsame : ∀ x, x ≠ b → s'.data.bufs x = c.ide.data.bufs x := fun x hx => by
    rw [hdata]
    exact update_of_ne hx _ _
  have hself : s'.data.bufs b = { c.ide.data.bufs b with data := data, dirty := true } := by
    rw [hdata]
    exact update_self _ _ _
  refine h.driven hdriver (by rw [hdata]; exact h.err) (fun x => ?_) (fun x hx => ?_)
    (uses_stage hu) (fun r x => ?_) (fun r x => ?_) (fun x hx => ?_)
  · by_cases hxb : x = b
    · subst hxb
      rw [hself]
      exact ⟨rfl, rfl, .inr⟩
    · rw [hsame x hxb]
      exact ⟨rfl, rfl, .inr⟩
  · by_cases hxb : x = b
    · subst hxb
      simp [hself, Buf.ready] at hx
    · rw [hsame x hxb] at hx
      have hsynced := h.synced x hx
      rw [Synced, hsame x hxb, hdata]
      exact hsynced
  · have hold := h.holds r x
    rw [hdata]
    rcases hst with rfl | rfl <;> grind [Use.holds]
  · have hold := h.busy r x
    have hloc := happ.loc
    have hothers := happ.others r
    grind [Use.requests, active]
  · by_cases hxb : x = b
    · exact ⟨p, by rw [update_self, hxb]; rfl⟩
    · rw [hsame x hxb] at hx
      obtain ⟨r, hr⟩ := h.dirty x hx
      refine ⟨r, ?_⟩
      rcases hst with rfl | rfl <;> grind [Use.dirties]

omit [DecidableEq B] in
theorem Coherent.valid (h : Coherent c) (hu : c.uses p = .using .locked b dev blockno) :
    Coherent (c.setUse p (.using .read b dev blockno)) := by
  refine h.driven h.driver h.err (fun x => ⟨rfl, rfl, .inr⟩) h.synced (uses_stage hu)
    (fun r x => ?_) (fun r x => ?_) (fun x hx => ?_)
  · have hold := h.holds r x
    grind [Use.holds]
  · have hold := h.busy r x
    grind [Use.requests]
  · obtain ⟨r, hr⟩ := h.dirty x hx
    refine ⟨r, ?_⟩
    grind [Use.dirties]

omit [DecidableEq P] in
theorem Inv.refill {s : System P B} {tr : List (System P B × Act P B)} {q : List B}
    (h : Inv tr q s) (hfree : ∀ r, active (s.threads r).loc ≠ some b) (buf : Buf) :
    Inv tr q { s with data := { s.data with bufs := update s.data.bufs b buf } } := by
  have hother : ∀ r x, active (s.threads r).loc = some x → x ≠ b := by
    rintro r x hr rfl
    exact hfree r hr
  refine h.still ⟨⟨h.base.locked.lock, h.base.locked.table, h.base.locked.asleep⟩, fun r x hw => ?_,
    h.base.asleep, h.base.owned⟩ rfl rfl (fun _ => rfl)
      (fun r x hr => update_of_ne (hother r x hr) _ _)
    h.order
  have hx := hother r x (h.base.active_of_waiting hw)
  refine (h.base.noLost r x hw).imp_left fun hblocked => ?_
  simpa [Blocked, hx] using hblocked

theorem caches_iff {buf : Buf} : buf.caches dev blockno = true ↔
    buf.dev = dev ∧ buf.blockno = blockno := by
  simp [Buf.caches]

theorem refs_insert {F : B → Finset P} {refcnt : B → Nat}
    (hF : ∀ b, refcnt b = (F b).card ∧ ∀ p, p ∈ F b ↔ (uses p).buffer = some b)
    (hout : uses p = .out) (b : B) (st : Stage) (dev blockno : Nat) : ∃ F' : B → Finset P, ∀ x,
      update refcnt b (refcnt b + 1) x = (F' x).card ∧
      ∀ r, r ∈ F' x ↔ (update uses p (.using st b dev blockno) r).buffer = some x := by
  have hp : ∀ x, p ∉ F x := fun x hx => by
    have hbuffer := ((hF x).2 p).mp hx
    rw [hout] at hbuffer
    cases hbuffer
  refine ⟨update F b (insert p (F b)), fun x => ?_⟩
  by_cases hxb : x = b
  · subst hxb
    rw [update_self, update_self, Finset.card_insert_of_notMem (hp x), (hF x).1]
    refine ⟨rfl, fun r => ?_⟩
    by_cases hr : r = p
    · simp [hr, Use.buffer]
    · simp [hr, (hF x).2 r]
  · rw [update_of_ne hxb, update_of_ne hxb]
    refine ⟨(hF x).1, fun r => ?_⟩
    by_cases hr : r = p
    · simp [hr, Use.buffer, hp x, Ne.symm hxb]
    · simp [hr, (hF x).2 r]

theorem refs_erase {F : B → Finset P} {refcnt : B → Nat} {st : Stage}
    (hF : ∀ b, refcnt b = (F b).card ∧ ∀ p, p ∈ F b ↔ (uses p).buffer = some b)
    (hu : uses p = .using st b dev blockno) : ∃ F' : B → Finset P, ∀ x,
      update refcnt b (refcnt b - 1) x = (F' x).card ∧
      ∀ r, r ∈ F' x ↔ (update uses p .out r).buffer = some x := by
  have hp : ∀ x, p ∈ F x ↔ b = x := fun x => by
    rw [(hF x).2 p, hu]
    simp [Use.buffer]
  refine ⟨update F b ((F b).erase p), fun x => ?_⟩
  by_cases hxb : x = b
  · subst hxb
    rw [update_self, update_self, Finset.card_erase_of_mem ((hp x).mpr rfl), (hF x).1]
    refine ⟨rfl, fun r => ?_⟩
    by_cases hr : r = p
    · simp [hr, Use.buffer]
    · simp [hr, (hF x).2 r]
  · rw [update_of_ne hxb, update_of_ne hxb]
    refine ⟨(hF x).1, fun r => ?_⟩
    by_cases hr : r = p
    · simp [hr, Use.buffer, hp x, Ne.symm hxb]
    · simp [hr, (hF x).2 r]

theorem Coherent.hit (h : Coherent c) (hout : c.uses p = .out) (hdev : dev ≤ 1)
    (hfind : c.lru.find? (fun b => (c.ide.data.bufs b).caches dev blockno) = some b) :
    Coherent ((c.setRef b (c.refcnt b + 1)).setUse p (.using .locking b dev blockno)) := by
  obtain ⟨F, hF⟩ := h.refs
  have hcaches := find?_some hfind
  obtain ⟨hbdev, hbno⟩ := caches_iff.mp hcaches
  have hlive : ∀ x, Live
    ((c.setRef b (c.refcnt b + 1)).setUse p (.using .locking b dev blockno)) x →
      x = b ∨ Live c x := by
    rintro x (hx | hx)
    · by_cases hxb : x = b
      · exact .inl hxb
      · simp only [Cache.setUse, Cache.setRef, update_of_ne hxb] at hx
        exact .inr (.inl hx)
    · exact .inr (.inr hx)
  refine ⟨h.driver, h.err, refs_insert hF hout b .locking dev blockno, fun r st x dev' no' hr => ?_,
    fun r x => ?_, fun r x => ?_, fun x hx => ?_, fun x hx => ?_, fun x hx => ?_, h.synced⟩
  · by_cases hrp : r = p
    · subst hrp
      simp only [Cache.setUse, update_self] at hr
      cases hr
      exact ⟨hbdev, hbno⟩
    · simp only [Cache.setUse, update_of_ne hrp] at hr
      exact h.key r st x dev' no' hr
  · have hold := h.holds r x
    simp only [Cache.setUse, Cache.setRef]
    grind [Use.holds]
  · have hold := h.busy r x
    simp only [Cache.setUse, Cache.setRef]
    grind [Use.requests]
  · obtain ⟨r, hr⟩ := h.dirty x hx
    refine ⟨r, ?_⟩
    simp only [Cache.setUse, Cache.setRef]
    grind [Use.dirties]
  · rcases hlive x hx with rfl | hx
    · simp only [Cache.setUse, Cache.setRef, hbdev, hbno]
      exact hfind
    · exact h.live x hx
  · rcases hlive x hx with rfl | hx
    · simp only [Cache.setUse, Cache.setRef, hbdev]
      exact hdev
    · exact h.dev x hx

omit [DecidableEq B] in
theorem find?_stricter {f g : B → Bool} {l : List B} (h : l.find? f = some b) (hb : g b = true)
    (hfg : ∀ x, g x = true → f x = true) : l.find? g = some b := by
  obtain ⟨-, pre, post, rfl, hpre⟩ := find?_eq_some_iff_append.mp h
  refine find?_eq_some_iff_append.mpr ⟨hb, pre, post, rfl, fun x hx => ?_⟩
  have hx := hpre x hx
  rw [Bool.not_eq_true'] at hx ⊢
  exact Bool.eq_false_iff.mpr fun hgx => by
    rw [hfg x hgx] at hx
    cases hx

omit [DecidableEq B] in
theorem find?_only {g : B → Bool} {l : List B} (hmem : b ∈ l) (hb : g b = true)
    (honly : ∀ x ∈ l, g x = true → x = b) : l.find? g = some b := by
  cases hfind : l.find? g with
  | none => exact absurd hb (find?_eq_none.mp hfind b hmem)
  | some x => rw [honly x (mem_of_find?_eq_some hfind) (find?_some hfind)]

theorem find?_erase {f : B → Bool} {l : List B} (hb : f b = false) :
    (l.erase b).find? f = l.find? f := by
  induction l with
  | nil => rfl
  | cons x l ih =>
    by_cases hxb : x = b
    · subst hxb
      rw [erase_cons_head, find?_cons, hb]
    · rw [erase_cons_tail (by simpa using hxb), find?_cons, find?_cons, ih]

omit [DecidableEq P] in
/-- An unused buffer is given to a block that no buffer of the list has. -/
theorem Coherent.recycle (h : Coherent c) (hzero : c.refcnt b = 0)
    (huncached : ∀ x ∈ c.lru, (c.ide.data.bufs x).caches dev blockno = false) :
    Coherent (c.setBuf b ⟨dev, blockno, false, false, (c.ide.data.bufs b).data⟩) := by
  obtain ⟨tr, q, hinv⟩ := h.driver
  have hunused : ∀ r, (c.uses r).buffer ≠ some b := fun r hr => by
    have hpos := h.refcnt_pos hr
    omega
  have hsame : ∀ x, x ≠ b → update c.ide.data.bufs b
      ⟨dev, blockno, false, false, (c.ide.data.bufs b).data⟩ x = c.ide.data.bufs x := fun x hx =>
    update_of_ne hx _ _
  have hlive : ∀ x, Live (c.setBuf b ⟨dev, blockno, false, false, (c.ide.data.bufs b).data⟩) x →
      x ≠ b ∧ Live c x := by
    intro x hx
    have hxb : x ≠ b := by
      rintro rfl
      simp [Live, Cache.setBuf, hzero] at hx
    simp only [Live, Cache.setBuf, hsame x hxb] at hx
    exact ⟨hxb, hx⟩
  refine ⟨⟨tr, q, hinv.refill (fun r hr => ?_) _⟩, h.err, h.refs, fun r st x dev' no' hr => ?_,
    h.holds, h.busy, fun x hx => ?_, fun x hx => ?_, fun x hx => ?_, fun x hx => ?_⟩
  · exact hunused r (buffer_of_holds (holds_of_requests ((h.busy r b).mp hr)))
  · have hxb : x ≠ b := by
      rintro rfl
      exact hunused r (by rw [show c.uses r = _ from hr]; rfl)
    simp only [Cache.setBuf, hsame x hxb]
    exact h.key r st x dev' no' hr
  · simp only [Cache.setBuf] at hx ⊢
    by_cases hxb : x = b
    · rw [hxb, update_self] at hx
      cases hx
    · rw [hsame x hxb] at hx
      exact h.dirty x hx
  · obtain ⟨hxb, hx⟩ := hlive x hx
    have hold := h.live x hx
    simp only [Cache.setBuf, hsame x hxb]
    refine find?_stricter hold ?_ fun y hy => ?_
    · rw [hsame x hxb]
      simp [Buf.caches]
    · by_cases hyb : y = b
      · subst hyb
        rw [update_self] at hy
        obtain ⟨hd, hn⟩ := caches_iff.mp hy
        have hnot := huncached x (mem_of_find?_eq_some hold)
        rw [Bool.eq_false_iff] at hnot
        exact absurd (caches_iff.mpr ⟨hd.symm, hn.symm⟩) hnot
      · rwa [hsame y hyb] at hy
  · obtain ⟨hxb, hx⟩ := hlive x hx
    simpa only [Cache.setBuf, hsame x hxb] using h.dev x hx
  · simp only [Cache.setBuf] at hx ⊢
    by_cases hxb : x = b
    · rw [hxb, update_self] at hx
      cases hx
    · rw [hsame x hxb] at hx
      simp only [Synced, hsame x hxb]
      exact h.synced x hx

theorem Coherent.miss (h : Coherent c) (hout : c.uses p = .out) (hdev : dev ≤ 1)
    (hnone : c.lru.find? (fun b => (c.ide.data.bufs b).caches dev blockno) = none)
    (hfind : c.lru.reverse.find? (fun b => c.refcnt b == 0 && !(c.ide.data.bufs b).dirty) =
      some b) :
    Coherent (((c.setBuf b ⟨dev, blockno, false, false, (c.ide.data.bufs b).data⟩).setRef b
      1).setUse
      p (.using .locking b dev blockno)) := by
  have hcond := find?_some hfind
  simp only [Bool.and_eq_true, beq_iff_eq] at hcond
  have huncached : ∀ x ∈ c.lru, (c.ide.data.bufs x).caches dev blockno = false := fun x hx =>
    Bool.eq_false_iff.mpr (find?_eq_none.mp hnone x hx)
  -- the buffer now has the block, and is found there
  have hfound := find?_only (b := b) (l := c.lru) (g := fun x => (update c.ide.data.bufs b
    ⟨dev, blockno, false, false, (c.ide.data.bufs b).data⟩ x).caches dev blockno)
    (mem_reverse.mp (mem_of_find?_eq_some hfind)) (by simp [Buf.caches]) fun y hy hcaches => by
      by_contra hyb
      rw [update_of_ne hyb, huncached y hy] at hcaches
      cases hcaches
  have hhit := (h.recycle hcond.1 huncached).hit hout hdev hfound
  simpa only [Cache.setBuf, hcond.1] using hhit

omit [DecidableEq P] in
omit [DecidableEq B] in
theorem Coherent.caches_ne (h : Coherent c) {x : B} (hb : Live c b) (hx : Live c x)
    (hne : x ≠ b) : (c.ide.data.bufs b).caches (c.ide.data.bufs x).dev
      (c.ide.data.bufs x).blockno = false := by
  refine Bool.eq_false_iff.mpr fun hcaches => ?_
  obtain ⟨hd, hn⟩ := caches_iff.mp hcaches
  have hfind := h.live b hb
  rw [hd, hn, h.live x hx] at hfind
  exact hne (Option.some.inj hfind)

/-- `brelse` drops its reference, and makes an unused buffer the most recently used one. -/
theorem Coherent.unref (h : Coherent c) (hu : c.uses p = .using .released b dev blockno) :
    Coherent ((c.unref b).setUse p .out) := by
  obtain ⟨F, hF⟩ := h.refs
  have hbuffer : (c.uses p).buffer = some b := by rw [hu]; rfl
  have hb : Live c b := .inl (h.refcnt_pos hbuffer)
  have hlru : (c.unref b).lru = c.lru ∨ (c.unref b).lru = b :: c.lru.erase b := by
    simp only [Cache.unref]
    split
    · exact .inr rfl
    · exact .inl rfl
  have hunref : c.unref b =
      { c with refcnt := update c.refcnt b (c.refcnt b - 1), lru := (c.unref b).lru } := by
    simp only [Cache.unref]
    split <;> rfl
  generalize (c.unref b).lru = lru at hunref hlru
  rw [hunref]
  have hlive : ∀ x, 0 < update c.refcnt b (c.refcnt b - 1) x ∨ (c.ide.data.bufs x).valid = true →
      Live c x := by
    rintro x (hx | hx)
    · by_cases hxb : x = b
      · exact hxb ▸ hb
      · rw [update_of_ne hxb] at hx
        exact .inl hx
    · exact .inr hx
  refine ⟨h.driver, h.err, refs_erase hF hu, fun r st x dev' no' hr => ?_, fun r x => ?_,
    fun r x => ?_, fun x hx => ?_, fun x hx => ?_, fun x hx => h.dev x (hlive x hx), h.synced⟩
  · simp only [Cache.setUse] at hr
    by_cases hrp : r = p
    · rw [hrp, update_self] at hr
      cases hr
    · rw [update_of_ne hrp] at hr
      exact h.key r st x dev' no' hr
  · have hold := h.holds r x
    simp only [Cache.setUse]
    grind [Use.holds]
  · have hold := h.busy r x
    simp only [Cache.setUse]
    grind [Use.requests]
  · obtain ⟨r, hr⟩ := h.dirty x hx
    refine ⟨r, ?_⟩
    simp only [Cache.setUse]
    grind [Use.dirties]
  · have hxlive := hlive x hx
    have hold := h.live x hxlive
    simp only [Cache.setUse]
    rcases hlru with rfl | rfl
    · exact hold
    · rw [find?_cons]
      by_cases hxb : x = b
      · rw [hxb, caches_iff.mpr ⟨rfl, rfl⟩]
      · rw [h.caches_ne hb hxlive hxb]
        refine (find?_erase ?_).trans hold
        exact h.caches_ne hb hxlive hxb

theorem drive_ok {a : Act P B} (h : c.drive a = .ok () c') :
    ∃ s', step c.ide a = .ok () s' ∧ c' = { c with ide := s' } := by
  unfold Cache.drive at h
  split at h
  · case h_1 s' hs =>
    cases h
    exact ⟨s', hs, rfl⟩
  · cases h
  · cases h

theorem advance_ok (h : c.advance p call u = .ok () c') :
    ∃ s', step c.ide (.run p call) = .ok () s' ∧
      c' = { c with ide := s', uses := update c.uses p u } :=
  drive_ok h

theorem Coherent.bget (h : Coherent c) (hdev : dev ≤ 1)
    (hs : cacheStep c (.bget p dev blockno) = .ok () c') : Coherent c' := by
  simp only [cacheStep] at hs
  split at hs
  · case h_1 hout =>
    unfold Cache.scan at hs
    cases hfind : c.lru.find? (fun b => (c.ide.data.bufs b).caches dev blockno) with
    | some b =>
      rw [hfind] at hs
      cases hs
      exact h.hit hout hdev hfind
    | none =>
      rw [hfind] at hs
      simp only at hs
      cases hfree : c.lru.reverse.find?
        (fun b => c.refcnt b == 0 && !(c.ide.data.bufs b).dirty) with
      | some b =>
        rw [hfree] at hs
        cases hs
        exact h.miss hout hdev hfind hfree
      | none =>
        rw [hfree] at hs
        cases hs
  · cases hs

theorem Coherent.proceed (h : Coherent c) (hs : cacheStep c (.proceed p) = .ok () c') :
    Coherent c' := by
  simp only [cacheStep] at hs
  split at hs
  · case h_1 b was hl =>
    obtain ⟨s', hstep, rfl⟩ := advance_ok hs
    obtain ⟨m, hm, happly⟩ := step_run hstep
    exact h.returned hl hm happly
  · case h_2 hnot =>
    obtain ⟨s', hstep, rfl⟩ := drive_ok hs
    obtain ⟨m, hm, happly⟩ := step_run hstep
    exact h.inside hm happly (.inl rfl) hnot

theorem Coherent.step {a : CacheAct P B} (h : Coherent c) (ha : Sound a)
    (hs : cacheStep c a = .ok () c') : Coherent c' := by
  cases a with
  | bget p dev blockno => exact h.bget ha hs
  | proceed p => exact h.proceed hs
  | fail junk => exact ha.elim
  | acquiresleep p =>
    simp only [cacheStep] at hs
    split at hs
    · case h_1 hu =>
      obtain ⟨s', hstep, rfl⟩ := advance_ok hs
      exact h.advances .acquiresleep hu hstep
    · cases hs
  | test p =>
    simp only [cacheStep] at hs
    split at hs
    · case h_1 hu =>
      split at hs
      · cases hs
        exact h.valid hu
      · obtain ⟨s', hstep, rfl⟩ := advance_ok hs
        exact h.advances .read hu hstep
    · cases hs
  | bwrite p data =>
    simp only [cacheStep] at hs
    split at hs
    · case h_1 hu =>
      obtain ⟨s', hstep, rfl⟩ := advance_ok hs
      exact h.bwrite hu (.inl rfl) hstep
    · case h_2 hu =>
      obtain ⟨s', hstep, rfl⟩ := advance_ok hs
      exact h.bwrite hu (.inr rfl) hstep
    · cases hs
  | iderw p =>
    simp only [cacheStep] at hs
    split at hs
    · case h_1 hu =>
      obtain ⟨s', hstep, rfl⟩ := advance_ok hs
      exact h.advances .write hu hstep
    · cases hs
  | brelse p =>
    simp only [cacheStep] at hs
    split at hs
    · case h_1 hu =>
      obtain ⟨s', hstep, rfl⟩ := advance_ok hs
      exact h.advances .clean hu hstep
    · case h_2 hu =>
      obtain ⟨s', hstep, rfl⟩ := advance_ok hs
      exact h.advances .written hu hstep
    · cases hs
  | unref p =>
    simp only [cacheStep] at hs
    split at hs
    · case h_1 hu =>
      cases hs
      exact h.unref hu
    · cases hs
  | interrupt p =>
    obtain ⟨s', hstep, rfl⟩ := drive_ok hs
    obtain ⟨hl, -⟩ := h.step_idle (by simp) hstep
    obtain ⟨m, hm, happly⟩ := step_run hstep
    exact h.inside hm happly (.inr rfl) (by simp [hl])
  | finish =>
    obtain ⟨s', hstep, rfl⟩ := drive_ok hs
    exact h.finish hstep
  | kill p =>
    have hdrive : c.drive (.kill p) = .ok () c' := hs
    obtain ⟨s', hstep, rfl⟩ := drive_ok hdrive
    cases hstep
    exact h.kill p

variable {bufs : List B}

omit [DecidableEq P] [DecidableEq B] in
theorem coherent_boot : Coherent (cacheBoot bufs disk havedisk1 : Cache P B) := by
  refine ⟨⟨[], [], inv_boot⟩, rfl, ⟨fun _ => ∅, fun b => ⟨rfl, fun p => ?_⟩⟩, ?_, ?_, ?_, ?_,
    fun b hb => ?_, fun b hb => ?_, ?_⟩
  · simp [cacheBoot, Use.buffer]
  · simp [cacheBoot]
  · simp [cacheBoot, boot, Use.holds]
  · simp [cacheBoot, boot, active, Use.requests]
  · simp [cacheBoot, boot]
  · simp [Live, cacheBoot, boot] at hb
  · simp [Live, cacheBoot, boot] at hb
  · simp [cacheBoot, boot, Buf.ready]

theorem coherent_of_trace {tr : List (Cache P B × CacheAct P B)}
    (htr : Trace cacheStep (cacheBoot bufs disk havedisk1) tr c) (hsound : ∀ x ∈ tr, Sound x.2) :
    Coherent c ∧ ∀ b, reported tr b = false := by
  refine Trace.invariant (I := fun tr c => (∀ x ∈ tr, Sound x.2) →
    Coherent c ∧ ∀ b, reported tr b = false) ?_ ?_ htr hsound
  · exact fun _ => ⟨coherent_boot, fun _ => rfl⟩
  · intro tr c a c' _ ih hs hsound
    obtain ⟨h, hnone⟩ := ih fun x hx => hsound x (mem_cons_of_mem _ hx)
    refine ⟨h.step (hsound _ mem_cons_self) hs, fun b => ?_⟩
    rw [reported]
    split
    · exact h.err
    · exact hnone b

/-- In every run in which no command fails, and whose blocks are on disk 0 or 1, no transfer
is taken for what it is not. -/
theorem good_data {tr : List (Cache P B × CacheAct P B)}
    (htr : Trace cacheStep (cacheBoot bufs disk havedisk1) tr c) (hsound : ∀ x ∈ tr, Sound x.2) :
    GoodData tr c := by
  obtain ⟨h, hnone⟩ := coherent_of_trace htr hsound
  refine ⟨fun p b dev blockno hu hvalid => ?_, fun p b dev blockno _ _ => hnone b⟩
  have hclean : (c.ide.data.bufs b).dirty = false :=
    h.clean (p := p) (by rw [hu]; rfl) (by rw [hu]; simp [Use.dirties])
  have hready : (c.ide.data.bufs b).ready = true := by rw [Buf.ready, hvalid, hclean]; rfl
  obtain ⟨hd, hn⟩ := h.key p .read b dev blockno hu
  have hsynced := h.synced b hready
  rw [Synced, Buf.place, hd, hn] at hsynced
  exact hsynced.symm

/-- In every such run a block has one buffer and a buffer one block, whoever uses them; a
buffer has as many references as users; one process at a time holds it, and a buffer that is
dirty is in the hands of a writer; a buffer that is ready is what the disk holds. -/
theorem cache_coherent {tr : List (Cache P B × CacheAct P B)}
    (htr : Trace cacheStep (cacheBoot bufs disk havedisk1) tr c) (hsound : ∀ x ∈ tr, Sound x.2) :
    (∀ p q st st' b b' (k k' : Nat × Nat), c.uses p = .using st b k.1 k.2 →
      c.uses q = .using st' b' k'.1 k'.2 → (b = b' ↔ k = k')) ∧
    (∀ b, ∃ F : Finset P, c.refcnt b = F.card ∧ ∀ p, p ∈ F ↔ (c.uses p).buffer = some b) ∧
    (∀ p q b, (c.uses p).holds = some b → (c.uses q).holds = some b → p = q) ∧
    (∀ b, (c.ide.data.bufs b).dirty = true → ∃ p, (c.uses p).dirties = some b) ∧
    ∀ b, (c.ide.data.bufs b).ready = true → Synced c.ide.data b := by
  obtain ⟨h, -⟩ := coherent_of_trace htr hsound
  obtain ⟨F, hF⟩ := h.refs
  refine ⟨fun p q st st' b b' k k' hp hq => ?_, fun b => ⟨F b, hF b⟩, fun p q b hp hq => ?_,
    h.dirty, h.synced⟩
  · obtain ⟨hd, hn⟩ := h.key p _ _ _ _ hp
    obtain ⟨hd', hn'⟩ := h.key q _ _ _ _ hq
    constructor
    · rintro rfl
      exact Prod.ext (hd.symm.trans hd') (hn.symm.trans hn')
    · rintro rfl
      -- both are what the scan of `bget` finds
      have hb := h.live b (.inl (h.refcnt_pos (p := p) (by rw [hp]; rfl)))
      have hb' := h.live b' (.inl (h.refcnt_pos (p := q) (by rw [hq]; rfl)))
      rw [hd, hn] at hb
      rw [hd', hn', hb] at hb'
      exact Option.some.inj hb'
  · have hlock := (h.holds p b).mpr hp
    rw [(h.holds q b).mpr hq] at hlock
    exact (Option.some.inj hlock).symm

theorem two_readers_coherent : ∃ tr c b b', Trace cacheStep
    (cacheBoot [0, 1] (fun _ => 5) true : Cache (Fin 2) (Fin 2)) tr c ∧
      c.uses 0 = .using .locking b 1 3 ∧ c.uses 1 = .using .locking b' 1 3 ∧ b = b' := by
  obtain ⟨tr, c, htr, hacts, hgood⟩ := Trace.of_actions cacheStep
    (cacheBoot [0, 1] (fun _ => 5) true : Cache (Fin 2) (Fin 2)) [.bget 0 1 3, .bget 1 1 3]
    (fun c => decide (c.uses 0 = .using .locking 1 1 3 ∧ c.uses 1 = .using .locking 1 1 3))
    (by decide +kernel)
  obtain ⟨h0, h1⟩ := of_decide_eq_true hgood
  refine ⟨tr, c, 1, 1, htr, h0, h1, ?_⟩
  refine ((cache_coherent htr fun x hx => ?_).1 0 1 _ _ 1 1 (1, 3) (1, 3) h0 h1).mpr rfl
  have hmem : x.2 ∈ tr.map Prod.snd := mem_map_of_mem hx
  rw [hacts, mem_reverse, mem_pair] at hmem
  rcases hmem with hx | hx <;> simp [hx, Sound]

/-- The steps from the call of `iderw` to its return, with the interrupt served by thread `q`;
`done` is what the disk does. -/
def request (p q : Fin 2) (done : CacheAct (Fin 2) Unit) : List (CacheAct (Fin 2) Unit) :=
  List.replicate 8 (.proceed p) ++ [done, .interrupt q] ++ List.replicate 7 (.proceed q) ++
  List.replicate 6 (.proceed p)

/-- `bread` of a block, whose command ends with `done`. -/
def readOne (p q : Fin 2) (done : CacheAct (Fin 2) Unit) : List (CacheAct (Fin 2) Unit) :=
  [.bget p 1 3, .acquiresleep p, .test p] ++ request p q done

/-- A good `bread`, then `bwrite` of new data, whose command ends with `done`. -/
def writeBack (p q : Fin 2) (done : CacheAct (Fin 2) Unit) : List (CacheAct (Fin 2) Unit) :=
  readOne p q .finish ++ [.bwrite p 7, .iderw p] ++ request p q done

theorem writeBack_good : ∃ tr c, Trace cacheStep (cacheBoot [()] (fun _ => 5) true) tr c ∧
    c.uses (0 : Fin 2) = .using .written () 1 3 ∧ GoodData tr c := by
  obtain ⟨tr, c, htr, hacts, hgood⟩ := Trace.of_actions cacheStep
    (cacheBoot [()] (fun _ => 5) true : Cache (Fin 2) Unit) (writeBack 0 1 .finish)
    (fun c => decide (c.uses 0 = .using .written () 1 3)) (by decide +kernel)
  refine ⟨tr, c, htr, of_decide_eq_true hgood, good_data htr fun x hx => ?_⟩
  · have hmem : x.2 ∈ (writeBack 0 1 .finish).reverse := hacts ▸ mem_map_of_mem hx
    generalize x.2 = a at hmem
    simp only [writeBack, readOne, request, mem_reverse, mem_append, mem_cons,
      mem_replicate, not_mem_nil, or_false] at hmem
    cases a <;> simp_all [Sound]

/-- After a failed read `bread` returns a valid buffer that is not what the disk holds, and
after a failed write `bwrite` returns a clean buffer. -/
theorem failed_transfers_accepted :
    (∃ tr c, Trace cacheStep (cacheBoot [()] (fun _ => 5) true : Cache (Fin 2) Unit) tr c ∧
      ¬ GoodData tr c ∧ c.uses 0 = .using .read () 1 3) ∧
    ∃ tr c, Trace cacheStep (cacheBoot [()] (fun _ => 5) true : Cache (Fin 2) Unit) tr c ∧
      ¬ GoodData tr c ∧ c.uses 0 = .using .written () 1 3 := by
  constructor
  · obtain ⟨tr, c, htr, -, hgood⟩ := Trace.of_record cacheStep
      (cacheBoot [()] (fun _ => 5) true : Cache (Fin 2) Unit) (readOne 0 1 (.fail 0))
      (fun _ c => decide (c.uses 0 = .using .read () 1 3 ∧
        (c.ide.data.bufs ()).valid = true ∧
        (c.ide.data.bufs ()).data ≠ c.ide.data.device.disk (1, 3))) (by decide +kernel)
    obtain ⟨hu, hvalid, hdata⟩ := of_decide_eq_true hgood
    exact ⟨tr, c, htr, fun h => hdata (h.1 0 () 1 3 hu hvalid), hu⟩
  · obtain ⟨tr, c, htr, -, hgood⟩ := Trace.of_record cacheStep
      (cacheBoot [()] (fun _ => 5) true : Cache (Fin 2) Unit) (writeBack 0 1 (.fail 0))
      (fun tr c => decide (c.uses 0 = .using .written () 1 3 ∧
        (c.ide.data.bufs ()).dirty = false ∧ reported tr () = true)) (by decide +kernel)
    obtain ⟨hu, hclean, hreported⟩ := of_decide_eq_true hgood
    refine ⟨tr, c, htr, fun h => ?_, hu⟩
    rw [h.2 0 () 1 3 hu hclean] at hreported
    cases hreported

end Xv6.Ide
