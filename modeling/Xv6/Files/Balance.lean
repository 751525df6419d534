import Mathlib.Algebra.BigOperators.Pi
import Xv6.Files.Tokens

/-!
# Every reference is counted once

The counts in the tables against what they count: a file's `ref` against descriptors, an inode's
`ref` against files and current directories, the open flags of a pipe against files.  What is
missing in between is what the views say the processes hold.
-/

namespace Xv6.Files

open Lib Function Finset

variable {n : Nat} {q : Fin n}

def File.weight (file : File) : Token → Int :=
  if 0 < file.ref then file.type.weight file.writable else 0

def slotWeight : Option FileId → Token → Int
  | none => 0
  | some f => tok (.file f)

def cwdWeight : Option InodeId → Token → Int
  | none => 0
  | some ip => tok (.inode ip)

def Pipe.shut (p : Pipe) : Bool := !p.readopen && !p.writeopen

namespace State

variable (s : State n)

def count : Token → Int
  | .inode ip => (s.icache ip).ref
  | .file f => (s.files f).ref
  | .pend x w => if (s.pipes x).isOpen w then 1 else 0
  | .page x => (if x < s.npipes ∧ (s.pipes x).shut = true then 1 else 0) - (s.pipes x).frees

def outside : Token → Int := ∑ f, (s.files f).weight

def share (p : Fin n) : Token → Int := cwdWeight (s.cwd p) + ∑ fd, slotWeight (s.ofile p fd)

end State

theorem weight_nonneg (type : FileType) (writable : Bool) (t : Token) :
    0 ≤ type.weight writable t := by
  cases type with
  | none => exact Int.le_refl 0
  | pipe p | inode ip => exact tok_nonneg _ t

theorem outside_nonneg (s : State n) (t : Token) : 0 ≤ s.outside t := by
  rw [State.outside, Finset.sum_apply]
  refine sum_nonneg fun f _ => ?_
  rw [File.weight]
  split
  · exact weight_nonneg _ _ t
  · exact Int.le_refl 0

theorem share_file (s : State n) (p : Fin n) (f : FileId) :
    s.share p (.file f) = ∑ fd, if s.ofile p fd = some f then 1 else 0 := by
  have hcwd : cwdWeight (s.cwd p) (.file f) = 0 := by
    cases s.cwd p <;> simp [cwdWeight, tok]
  rw [State.share, Pi.add_apply, hcwd, zero_add, Finset.sum_apply]
  refine sum_congr rfl fun fd _ => ?_
  cases s.ofile p fd with
  | none => simp [slotWeight]
  | some g => simp [slotWeight, tok, eq_comm]

theorem share_inode (s : State n) (p : Fin n) (ip : InodeId) :
    s.share p (.inode ip) = if s.cwd p = some ip then 1 else 0 := by
  have hslots : (∑ fd, slotWeight (s.ofile p fd)) (.inode ip) = 0 := by
    rw [Finset.sum_apply]
    refine sum_eq_zero fun fd _ => ?_
    cases s.ofile p fd <;> simp [slotWeight, tok]
  rw [State.share, Pi.add_apply, hslots, add_zero]
  cases s.cwd p with
  | none => simp [cwdWeight]
  | some g => simp [cwdWeight, tok, eq_comm]

structure Knows (s : State n) (p : Fin n) (v : View n) : Prop where
  active : v.active = true → s.procs p = .running
  idle : v.active = false → v = .idle
  slots : ∀ fd x, v.known fd = some x → s.ofile p fd = x
  cwd : ∀ x, v.cwd = some x → s.cwd p = x
  fresh : ∀ f, v.fresh f = true →
    (s.files f).type = .none ∧ 1 ≤ s.share p (.file f) + v.held (.file f)
  child : ∀ c, v.child = some c → s.procs c.np = .embryo ∧
    (∀ fd, c.slots fd = true → s.ofile c.np fd = none) ∧ (c.cwd = true → s.cwd c.np = none)
  ops : s.begins p = s.ends p + v.inOp.toNat

structure Inv (s : State n) (views : Fin n → View n) : Prop where
  balance : s.count = s.outside + ∑ p, s.share p + ∑ p, (views p).held
  nonneg : ∀ p t, 0 ≤ s.share p t + (views p).held t
  knows : ∀ p, Knows s p (views p)
  fresh : ∀ p q f, (views p).fresh f = true → (views q).fresh f = true → p = q
  child : ∀ p q c d, (views p).child = some c → (views q).child = some d → c.np = d.np → p = q
  empty : ∀ q, s.procs q = .unused ∨ s.procs q = .zombie →
    (∀ fd, s.ofile q fd = none) ∧ s.cwd q = none
  embryo : ∀ q, s.procs q = .embryo → ∃ p c, (views p).child = some c ∧ c.np = q
  closed : ∀ f, (s.files f).ref = 0 → (s.files f).type = .none
  unique : ∀ i j, 0 < (s.icache i).ref → 0 < (s.icache j).ref →
    (s.icache i).dev = (s.icache j).dev → (s.icache i).inum = (s.icache j).inum → i = j
  pipes : ∀ x, s.npipes ≤ x → s.pipes x = ⟨false, false, 0⟩

variable {s s' : State n} {views : Fin n → View n} {p : Fin n} {v : View n} {t : Token}

theorem Knows.ownFile_le (h : Knows s p v) (f : FileId) :
    v.ownFile f ≤ s.share p (.file f) + v.held (.file f) := by
  rw [View.ownFile, share_file]
  refine Int.add_le_add_right (sum_le_sum fun fd _ => ?_) _
  split
  · case isTrue hknown => rw [if_pos (h.slots fd _ hknown)]
  · split <;> decide

theorem Knows.ownInode_le (h : Knows s p v) (ip : InodeId) :
    v.ownInode ip ≤ s.share p (.inode ip) + v.held (.inode ip) := by
  rw [View.ownInode, share_inode]
  refine Int.add_le_add_right ?_ _
  split
  · case isTrue hknown => rw [if_pos (h.cwd _ hknown)]
  · split <;> decide

theorem Inv.le_count (h : Inv s views) (p : Fin n) (t : Token) :
    s.outside t + (s.share p t + (views p).held t) ≤ s.count t := by
  have hsum : s.count t = s.outside t + ∑ q, (s.share q t + (views q).held t) := by
    rw [h.balance, sum_add_distrib]
    simp only [Pi.add_apply, Finset.sum_apply]
    omega
  have hle := single_le_sum (f := fun q => s.share q t + (views q).held t)
    (fun q _ => h.nonneg q t) (mem_univ p)
  omega

theorem Inv.one_le_count (h : Inv s views) (hp : 1 ≤ s.share p t + (views p).held t) :
    1 ≤ s.count t := by
  have hle := h.le_count p t
  have houtside := outside_nonneg s t
  omega

theorem sum_update (g : Fin n → Token → Int) (p : Fin n) (x : Token → Int) :
    ∑ q, update g p x q = ∑ q, g q - g p + x := by
  obtain ⟨rest, hsum, hupdate⟩ := sum_slot id g p
  simp only [id] at hsum hupdate
  rw [hsum, hupdate]
  abel

theorem sum_held (views : Fin n → View n) (p : Fin n) (v : View n) :
    ∑ q, (update views p v q).held = ∑ q, (views q).held - (views p).held + v.held := by
  obtain ⟨rest, hsum, hupdate⟩ := sum_slot View.held views p
  rw [hsum, hupdate]
  abel

theorem count_setFile (f : FileId) (file : File) :
    (s.setFile f file).count = s.count + ((file.ref : Int) - (s.files f).ref) • tok (.file f) := by
  funext t
  cases t with
  | file g =>
    by_cases hg : g = f
    · subst hg
      simp [State.count, State.setFile]
    · simp [State.count, State.setFile, hg, tok]
  | inode ip => simp [State.count, State.setFile, tok]
  | pend x w | page x => exact (add_eq_left.mpr (by simp [tok])).symm

theorem outside_setFile (f : FileId) (file : File) :
    (s.setFile f file).outside = s.outside - (s.files f).weight + file.weight := by
  obtain ⟨rest, hsum, hupdate⟩ := sum_slot File.weight s.files f
  rw [State.outside, State.outside, hsum]
  simp only [State.setFile]
  rw [hupdate]
  abel

theorem count_setEntry (ip : InodeId) (e : Entry) : (s.setEntry ip e).count
      = s.count + ((e.ref : Int) - (s.icache ip).ref) • tok (.inode ip) := by
  funext t
  cases t with
  | inode jp =>
    by_cases hj : jp = ip
    · subst hj
      simp [State.count, State.setEntry]
    · simp [State.count, State.setEntry, hj, tok]
  | file f => simp [State.count, State.setEntry, tok]
  | pend x w | page x => exact (add_eq_left.mpr (by simp [tok])).symm

theorem share_setSlot (fd : Fin NOFILE) (x : Option FileId) :
    (s.setSlot p fd x).share p = s.share p - slotWeight (s.ofile p fd) + slotWeight x := by
  obtain ⟨rest, hsum, hupdate⟩ := sum_slot slotWeight (s.ofile p) fd
  simp only [State.share, State.setSlot, update_self, hsum, hupdate]
  abel

theorem share_setSlot_ne (hq : q ≠ p) (fd : Fin NOFILE) (x : Option FileId) :
    (s.setSlot p fd x).share q = s.share q := by
  simp only [State.share, State.setSlot, update_of_ne hq]

theorem share_setCwd (x : Option InodeId) :
    (s.setCwd p x).share p = s.share p - cwdWeight (s.cwd p) + cwdWeight x := by
  simp only [State.share, State.setCwd, update_self]
  abel

theorem share_setCwd_ne (hq : q ≠ p) (x : Option InodeId) : (s.setCwd p x).share q = s.share q := by
  simp only [State.share, State.setCwd, update_of_ne hq]

theorem sum_share {d : Token → Int} (hp : s'.share p = s.share p + d)
    (hother : ∀ q, q ≠ p → s'.share q = s.share q) : ∑ q, s'.share q = ∑ q, s.share q + d := by
  have hfun : s'.share = update s.share p (s.share p + d) := by
    funext q
    by_cases hq : q = p
    · subst hq
      rw [hp, update_self]
    · rw [hother q hq, update_of_ne hq]
  rw [hfun, sum_update]
  abel

/-- What a step of `p` leaves to the other processes; `kid` is one that is not running. -/
structure Frame (s s' : State n) (p : Fin n) (kid : Option (Fin n)) (v : View n) : Prop where
  ofile : ∀ q, q ≠ p → kid ≠ some q → s'.ofile q = s.ofile q
  cwd : ∀ q, q ≠ p → kid ≠ some q → s'.cwd q = s.cwd q
  procs : ∀ q, q ≠ p → kid ≠ some q → s'.procs q = s.procs q
  types : ∀ f, v.fresh f = false → (s.files f).type = .none → (s'.files f).type = .none
  begins : ∀ q, q ≠ p → s'.begins q = s.begins q
  ends : ∀ q, q ≠ p → s'.ends q = s.ends q

/-- Nobody but `p` has anything to do with `kid`. -/
structure Apart (s s' : State n) (views : Fin n → View n) (p q : Fin n) : Prop where
  ne : q ≠ p
  still : s.procs q ≠ .running
  share : ∀ t, s.share q t ≤ s'.share q t
  child : ∀ r c, r ≠ p → (views r).child = some c → c.np ≠ q

variable {kid : Option (Fin n)}

theorem Frame.share (hf : Frame s s' p kid v) (hq : q ≠ p) (hk : kid ≠ some q) :
    s'.share q = s.share q := by
  rw [State.share, State.share, hf.ofile q hq hk, hf.cwd q hq hk]

theorem Inv.idle_of_still (h : Inv s views) (hq : s.procs q ≠ .running) : views q = .idle := by
  refine (h.knows q).idle ?_
  by_contra hactive
  exact hq ((h.knows q).active (by simpa using hactive))

section

variable (h : Inv s views)
  (hf : Frame s s' p kid (views p)) (hkid : ∀ q, kid = some q → Apart s s' views p q)
  (hrun : s.procs p = .running)

include h hf hkid hrun

theorem Inv.knows_other (hq : q ≠ p) : Knows s' q (views q) := by
  have hknows := h.knows q
  have hops : s'.begins q = s'.ends q + (views q).inOp.toNat := by
    rw [hf.begins q hq, hf.ends q hq]
    exact hknows.ops
  by_cases hk : kid = some q
  · -- a process that is not running knows nothing
    have hidle := h.idle_of_still (hkid q hk).still
    rw [hidle] at hops ⊢
    exact ⟨nofun, fun _ => rfl, nofun, nofun, nofun, nofun, hops⟩
  · refine ⟨fun ha => ?_, hknows.idle, fun fd x hx => ?_, fun x hx => ?_, fun f hx => ?_,
      fun c hc => ?_, hops⟩
    · rw [hf.procs q hq hk]
      exact hknows.active ha
    · rw [hf.ofile q hq hk]
      exact hknows.slots fd x hx
    · rw [hf.cwd q hq hk]
      exact hknows.cwd x hx
    · obtain ⟨htype, hone⟩ := hknows.fresh f hx
      have hp : (views p).fresh f = false := by
        by_contra hfresh
        exact hq (h.fresh q p f hx (by simpa using hfresh))
      rw [hf.share hq hk]
      exact ⟨hf.types f hp htype, hone⟩
    · obtain ⟨hembryo, hslots, hcwd⟩ := hknows.child c hc
      have hcp : c.np ≠ p := fun heq => by
        rw [heq, hrun] at hembryo
        cases hembryo
      have hck : kid ≠ some c.np := fun heq => (hkid _ heq).child q c hq hc rfl
      rw [hf.procs _ hcp hck, hf.ofile _ hcp hck, hf.cwd _ hcp hck]
      exact ⟨hembryo, hslots, hcwd⟩

theorem Inv.move (hbal : s'.count - s'.outside - ∑ q, s'.share q + (views p).held
      = s.count - s.outside - ∑ q, s.share q + v.held)
    (hnonneg : ∀ t, 0 ≤ s'.share p t + v.held t) (hknows : Knows s' p v)
    (hfresh : ∀ f, v.fresh f = true → (views p).fresh f = true ∨ (s.files f).ref = 0)
    (hchild : ∀ c, v.child = some c →
      s.procs c.np = .unused ∨ ∃ d, (views p).child = some d ∧ d.np = c.np)
    (hdropped : ∀ d, (views p).child = some d → kid = some d.np ∨ v.child = some d)
    (hempty : ∀ q, q = p ∨ kid = some q → s'.procs q = .unused ∨ s'.procs q = .zombie →
      (∀ fd, s'.ofile q fd = none) ∧ s'.cwd q = none)
    (hembryo : ∀ q, q = p ∨ kid = some q → s'.procs q = .embryo → ∃ c, v.child = some c ∧ c.np = q)
    (hclosed : ∀ f, (s'.files f).ref = 0 → (s'.files f).type = .none)
    (hunique : ∀ i j, 0 < (s'.icache i).ref → 0 < (s'.icache j).ref →
      (s'.icache i).dev = (s'.icache j).dev → (s'.icache i).inum = (s'.icache j).inum → i = j)
    (hpipes : ∀ x, s'.npipes ≤ x → s'.pipes x = ⟨false, false, 0⟩) :
    Inv s' (update views p v) where
  balance := by
    rw [sum_held]
    have hold := h.balance
    have hcount : s'.count = s'.outside + ∑ q, s'.share q +
        (s.count - s.outside - ∑ q, s.share q - (views p).held + v.held) := by
      rw [sub_add_eq_add_sub, ← hbal]
      abel
    rw [hcount, hold]
    abel
  nonneg q t := by
    by_cases hq : q = p
    · subst hq
      rw [update_self]
      exact hnonneg t
    · rw [update_of_ne hq]
      have hold := h.nonneg q t
      by_cases hk : kid = some q
      · have hle := (hkid q hk).share t
        omega
      · rwa [hf.share hq hk]
  knows q := by
    by_cases hq : q = p
    · subst hq
      rwa [update_self]
    · rw [update_of_ne hq]
      exact h.knows_other hf hkid hrun hq
  fresh := by
    -- a file that was free is fresh to nobody else
    have hother : ∀ q f, q ≠ p → v.fresh f = true → (views q).fresh f = true → False := by
      intro q f hq hv hx
      rcases hfresh f hv with hold | hfree
      · exact hq (h.fresh q p f hx hold)
      · have hone := h.one_le_count ((h.knows q).fresh f hx).2
        simp only [State.count, hfree] at hone
        omega
    intro q r f hq hr
    by_cases hqp : q = p
    · by_cases hrp : r = p
      · rw [hqp, hrp]
      · rw [hqp, update_self] at hq
        rw [update_of_ne hrp] at hr
        exact absurd hr (hother r f hrp hq)
    · rw [update_of_ne hqp] at hq
      by_cases hrp : r = p
      · rw [hrp, update_self] at hr
        exact absurd hq (hother q f hqp hr)
      · rw [update_of_ne hrp] at hr
        exact h.fresh q r f hq hr
  child := by
    have hother : ∀ q c d, q ≠ p → v.child = some c → (views q).child = some d →
        c.np = d.np → False := by
      intro q c d hq hv hx heq
      rcases hchild c hv with hunused | ⟨e, he, hec⟩
      · have hemb := ((h.knows q).child d hx).1
        rw [← heq, hunused] at hemb
        cases hemb
      · exact hq (h.child q p d e hx he (heq.symm.trans hec.symm))
    intro q r c d hq hr heq
    by_cases hqp : q = p
    · by_cases hrp : r = p
      · rw [hqp, hrp]
      · rw [hqp, update_self] at hq
        rw [update_of_ne hrp] at hr
        exact absurd heq (fun heq => hother r c d hrp hq hr heq)
    · rw [update_of_ne hqp] at hq
      by_cases hrp : r = p
      · rw [hrp, update_self] at hr
        exact absurd heq.symm (fun heq => hother q d c hqp hr hq heq)
      · rw [update_of_ne hrp] at hr
        exact h.child q r c d hq hr heq
  empty q hst := by
    by_cases hq : q = p
    · exact hempty q (.inl hq) hst
    by_cases hk : kid = some q
    · exact hempty q (.inr hk) hst
    · rw [hf.procs q hq hk] at hst
      rw [hf.ofile q hq hk, hf.cwd q hq hk]
      exact h.empty q hst
  embryo q hst := by
    by_cases hmine : q = p ∨ kid = some q
    · obtain ⟨c, hc, hnp⟩ := hembryo q hmine hst
      exact ⟨p, c, by rwa [update_self], hnp⟩
    · obtain ⟨hq, hk⟩ := not_or.mp hmine
      rw [hf.procs q hq hk] at hst
      obtain ⟨r, c, hc, rfl⟩ := h.embryo q hst
      by_cases hr : r = p
      · subst hr
        have hkept := (hdropped c hc).resolve_left hk
        exact ⟨r, c, by rwa [update_self], rfl⟩
      · exact ⟨r, c, by rwa [update_of_ne hr], rfl⟩
  closed := hclosed
  unique := hunique
  pipes := hpipes

end

theorem Inv.own (h : Inv s views) (hrun : s.procs p = .running) (hprocs : s'.procs = s.procs)
    (hofile : ∀ q, q ≠ p → s'.ofile q = s.ofile q) (hcwd : ∀ q, q ≠ p → s'.cwd q = s.cwd q)
    (htypes : ∀ f, (views p).fresh f = false → (s.files f).type = .none → (s'.files f).type = .none)
    (hbegins : ∀ q, q ≠ p → s'.begins q = s.begins q) (hends : ∀ q, q ≠ p → s'.ends q = s.ends q)
    (hchild : v.child = (views p).child)
    (hbal : s'.count - s'.outside - ∑ q, s'.share q + (views p).held
      = s.count - s.outside - ∑ q, s.share q + v.held)
    (hnonneg : ∀ t, 0 ≤ s'.share p t + v.held t) (hidle : v.active = false → v = .idle)
    (hslots : ∀ fd x, v.known fd = some x → s'.ofile p fd = x)
    (hkcwd : ∀ x, v.cwd = some x → s'.cwd p = x)
    (hfresh : ∀ f, v.fresh f = true →
      (s'.files f).type = .none ∧ 1 ≤ s'.share p (.file f) + v.held (.file f))
    (hops : s'.begins p = s'.ends p + v.inOp.toNat)
    (hnew : ∀ f, v.fresh f = true → (views p).fresh f = true ∨ (s.files f).ref = 0)
    (hclosed : ∀ f, (s'.files f).ref = 0 → (s'.files f).type = .none)
    (hunique : ∀ i j, 0 < (s'.icache i).ref → 0 < (s'.icache j).ref →
      (s'.icache i).dev = (s'.icache j).dev → (s'.icache i).inum = (s'.icache j).inum → i = j)
    (hpipes : ∀ x, s'.npipes ≤ x → s'.pipes x = ⟨false, false, 0⟩) :
    Inv s' (update views p v) := by
  have hp : ∀ st, s'.procs p = st → st = .running := fun st hst => by
    rw [← hst, hprocs, hrun]
  have hframe : Frame s s' p none (views p) := ⟨fun q hq _ => hofile q hq,
    fun q hq _ => hcwd q hq, fun q _ _ => by rw [hprocs], htypes, hbegins, hends⟩
  refine h.move hframe nofun hrun hbal hnonneg
    ⟨fun _ => by rw [hprocs, hrun], hidle, hslots, hkcwd, hfresh, fun c hc => ?_, hops⟩ hnew
    (fun c hc => .inr ⟨c, hchild ▸ hc, rfl⟩) (fun d hd => .inr (hchild ▸ hd)) ?_ ?_
    hclosed hunique hpipes
  · obtain ⟨hembryo, hslots, hcwd'⟩ := (h.knows p).child c (hchild ▸ hc)
    have hne : c.np ≠ p := fun heq => by
      rw [heq, hrun] at hembryo
      cases hembryo
    rw [hprocs, hofile _ hne, hcwd _ hne]
    exact ⟨hembryo, hslots, hcwd'⟩
  · rintro q (rfl | hk) hst
    · rcases hst with hst | hst
      · cases hp _ hst
      · cases hp _ hst
    · cases hk
  · rintro q (rfl | hk) hst
    · cases hp _ hst
    · cases hk

end Xv6.Files
