import Xv6.Bio.Discipline

/-!
# Why a buffer is dirty

A buffer that nobody refers to is dirty only because its block is in the log.  That rests on the
phases a process goes through: inside an operation it may append to the log, and the process that
commits writes every logged block to its place before it clears the log, while no operation is
open.
-/

namespace Xv6.Bio

open Lib Log.Control Function List Protocol

variable {P : Type} {v : LogView}

/-- A committing process remembers the log header, and the blocks that may still be dirty. -/
inductive Phase where
  | outside
  | inOp
  | commit (lh left : List Nat)

namespace Phase

def isCommit : Phase → Bool
  | .commit _ _ => true
  | _ => false

def ops : Phase → Nat
  | .inOp => 1
  | _ => 0

def written (b : Nat) : Phase → Phase
  | .commit lh left => .commit lh (left.filter (· ≠ b))
  | ph => ph

def Below : Phase → Phase → Prop
  | .commit lh left, ph => ∃ more, ph = .commit lh more ∧ left ⊆ more
  | ph, ph' => ph = ph'

theorem Below.refl (ph : Phase) : Below ph ph := by
  cases ph with
  | commit lh left => exact ⟨left, rfl, fun _ hb => hb⟩
  | outside => rfl
  | inOp => rfl

theorem Below.trans {x y z : Phase} (hxy : Below x y) (hyz : Below y z) : Below x z := by
  cases x with
  | commit lh left =>
    obtain ⟨more, rfl, hsub⟩ := hxy
    obtain ⟨most, rfl, hsub'⟩ := hyz
    exact ⟨most, rfl, fun _ hb => hsub' (hsub hb)⟩
  | outside | inOp => cases hxy; exact hyz

theorem written_below (b : Nat) (ph : Phase) : Below (ph.written b) ph := by
  cases ph with
  | commit lh left => exact ⟨left, rfl, filter_subset_self _⟩
  | outside => rfl
  | inOp => rfl

theorem Below.commit_right {ph : Phase} {lh left : List Nat} (h : Below ph (.commit lh left)) :
    ∃ less, ph = .commit lh less ∧ less ⊆ left := by
  cases ph with
  | commit lh' left' =>
    obtain ⟨more, heq, hsub⟩ := h
    cases heq
    exact ⟨left', rfl, hsub⟩
  | outside => cases h
  | inOp => cases h

end Phase

/-- The phase of a process, and the blocks of the buffers it has looked up. -/
structure LogView where
  phase : Phase
  keys : Fin NBUF → Nat

def LogView.setPhase (v : LogView) (ph : Phase) : LogView := { v with phase := ph }

def phaseProtocol : Protocol CacheSig LogView where
  pre
    | .logAppend _, v => v.phase = .inOp
    | .beginOp, v => v.phase = .outside
    | .endOp, v => v.phase = .inOp
    | .clear, v => ∃ lh, v.phase = .commit lh []
    | .commitDone, v => v.phase.isCommit = true
    | _, _ => True
  post
    | .scan _ blockno, v, i, v' => v' = { v with keys := update v.keys i blockno }
    | .iderw i, v, _, v' => v' = v.setPhase (v.phase.written (v.keys i))
    | .beginOp, v, _, v' => v' = v.setPhase .inOp
    | .endOp, v, doCommit, v' =>
      ∃ ph, v' = v.setPhase ph ∧
        if doCommit then ∃ lh, ph = .commit lh lh else ph = .outside
    | .log, v, log, v' => v' = v ∧ ∀ lh left, v.phase = .commit lh left → log.lh = lh
    | .clear, v, _, v' => v' = v.setPhase (.commit [] [])
    | .commitDone, v, _, v' => v' = v.setPhase .outside
    | _, v, _, v' => v' = v

/-- The same for whole functions; a `bread` may have read the disk. -/
def phaseCalls : Protocol CallSig LogView where
  pre
    | .logWrite _, v => v.phase = .inOp
    | .beginOp, v => v.phase = .outside
    | .endOp, v => v.phase = .inOp
    | .clear, v => ∃ lh, v.phase = .commit lh []
    | .commitDone, v => v.phase.isCommit = true
    | _, _ => True
  post
    | .bread _ blockno, v, i, v' =>
      v'.keys = update v.keys i blockno ∧ v'.phase.Below v.phase
    | .bwrite _ i, v, _, v' => v'.phase.Below (v.phase.written (v.keys i))
    | .beginOp, v, _, v' => v' = v.setPhase .inOp
    | .endOp, v, doCommit, v' =>
      ∃ ph, v' = v.setPhase ph ∧
        if doCommit then ∃ lh, ph = .commit lh lh else ph = .outside
    | .log, v, log, v' => v' = v ∧ ∀ lh left, v.phase = .commit lh left → log.lh = lh
    | .clear, v, _, v' => v' = v.setPhase (.commit [] [])
    | .commitDone, v, _, v' => v' = v.setPhase .outside
    | _, v, _, v' => v' = v

theorem body_phases (c : Call) (v : LogView) (hpre : phaseCalls.pre c v) :
    phaseProtocol.wp (body c) (fun r v' => phaseCalls.post c v r v') v := by
  cases c with
  | bread dev blockno =>
    refine ⟨trivial, ?_⟩
    rintro i v1 rfl
    refine ⟨trivial, ?_⟩
    rintro _ v2 rfl
    refine ⟨trivial, ?_⟩
    rintro valid v3 rfl
    cases valid with
    | true => exact ⟨rfl, Phase.Below.refl _⟩
    | false =>
      refine ⟨trivial, ?_⟩
      rintro _ v4 rfl
      exact ⟨rfl, Phase.written_below _ _⟩
  | bwrite _ i =>
    refine ⟨trivial, ?_⟩
    rintro _ v1 rfl
    refine ⟨trivial, ?_⟩
    rintro _ v2 rfl
    exact Phase.Below.refl _
  | brelse i =>
    refine ⟨trivial, ?_⟩
    rintro _ v1 rfl
    refine ⟨trivial, ?_⟩
    rintro _ v2 rfl
    rfl
  | logWrite i =>
    refine ⟨trivial, ?_⟩
    rintro _ v1 rfl
    refine ⟨hpre, ?_⟩
    rintro _ v2 rfl
    rfl
  | _ => exact ⟨hpre, fun _ _ hpost => hpost⟩

theorem wp_round {dev b b' : Nat} {copy : Fin NBUF → Fin NBUF → CallM Unit} {R : LogView → Prop}
    (h : ∀ i j v', v'.phase.Below v.phase → v'.keys j = b' →
      phaseCalls.wp (copy i j) (fun _ => R) v') :
    phaseCalls.wp (do
      let i ← call (.bread dev b)
      let j ← call (.bread dev b')
      copy i j) (fun _ => R) v := by
  refine ⟨trivial, ?_⟩
  rintro i v1 ⟨-, hbelow⟩
  refine ⟨trivial, ?_⟩
  rintro j v2 ⟨hkeys, hbelow'⟩
  exact h i j v2 (hbelow'.trans hbelow) (by rw [hkeys, update_self])

theorem wp_store {w : Writer} (dst src x y : Fin NBUF) :
    phaseCalls.wp (do memmove dst src; call (.bwrite w dst); call (.brelse x); call (.brelse y))
      (fun _ v' => v'.phase.Below (v.phase.written (v.keys dst))) v := by
  refine ⟨trivial, ?_⟩
  rintro _ v1 rfl
  refine ⟨trivial, ?_⟩
  rintro _ v2 rfl
  refine ⟨trivial, ?_⟩
  rintro _ v3 hbelow
  refine ⟨trivial, ?_⟩
  rintro _ v4 rfl
  refine ⟨trivial, ?_⟩
  rintro _ v5 rfl
  exact hbelow

theorem phases_writeLog (v : LogView) :
    phaseCalls.wp writeLog (fun _ v' => v'.phase.Below v.phase) v := by
  refine ⟨trivial, ?_⟩
  rintro log v1 ⟨rfl, -⟩
  apply wp_forM (I := fun v' : LogView => v'.phase.Below v1.phase) (Phase.Below.refl _)
  intro tail _ v2 hv2
  refine wp_round fun dst src v3 hv3 _ => wp_mono (wp_store dst src src dst) ?_
  intro _ v4 hv4
  exact hv4.trans ((Phase.written_below _ _).trans (hv3.trans hv2))

theorem phases_writeHead (v : LogView) :
    phaseCalls.wp writeHead (fun _ v' => v'.phase.Below v.phase) v := by
  refine ⟨trivial, ?_⟩
  rintro log v1 ⟨rfl, -⟩
  refine ⟨trivial, ?_⟩
  rintro buf v2 ⟨-, hbelow⟩
  refine ⟨trivial, ?_⟩
  rintro _ v3 rfl
  refine ⟨trivial, ?_⟩
  rintro _ v4 rfl
  refine ⟨trivial, ?_⟩
  rintro _ v5 hbelow'
  refine ⟨trivial, ?_⟩
  rintro _ v6 rfl
  exact hbelow'.trans ((Phase.written_below _ _).trans hbelow)

/-- What is left is still to be installed by the rounds `xs` of the loop. -/
def Remaining (lh : List Nat) (xs : List Nat) (v : LogView) : Prop :=
  ∃ left, v.phase = .commit lh left ∧ ∀ b ∈ left, ∃ x ∈ xs, b = lh.getD x 0

theorem phases_installTrans {lh left : List Nat} (hv : v.phase = .commit lh left)
    (hleft : left ⊆ lh) : phaseCalls.wp installTrans (fun _ v' => v'.phase = .commit lh []) v := by
  refine ⟨trivial, ?_⟩
  rintro log v1 ⟨rfl, hlog⟩
  have hstart : Remaining lh (List.range log.lh.length) v1 := by
    refine ⟨left, hv, fun b hb => ?_⟩
    obtain ⟨x, hx, rfl⟩ := mem_iff_getElem.mp (hleft hb)
    refine ⟨x, by rwa [hlog lh left hv, mem_range], ?_⟩
    rw [getD_eq_getElem?_getD, List.getElem?_eq_getElem hx, Option.getD_some]
  refine wp_mono (wp_forM_rest (I := Remaining lh) hstart ?_) ?_
  · intro tail xs v2 ⟨more, hphase, hmore⟩
    refine wp_round fun lbuf dbuf v3 hv3 hkey =>
      wp_mono (wp_store dbuf lbuf lbuf dbuf) ?_
    intro _ v4 hv4
    rw [hphase] at hv3
    obtain ⟨less, hless, hsub⟩ := hv3.commit_right
    rw [hless, Phase.written, hkey, hlog lh left hv] at hv4
    obtain ⟨rest, hrest, hsub'⟩ := hv4.commit_right
    refine ⟨rest, hrest, fun b hb => ?_⟩
    obtain ⟨hb', hne⟩ := mem_filter.mp (hsub' hb)
    obtain ⟨x, hx, rfl⟩ := hmore b (hsub hb')
    cases hx with
    | head => simp at hne
    | tail _ hx => exact ⟨x, hx, rfl⟩
  · intro _ v' ⟨rest, hphase, hrest⟩
    cases rest with
    | nil => exact hphase
    | cons b rest =>
      obtain ⟨x, hx, -⟩ := hrest b mem_cons_self
      cases hx

theorem phases_commit {lh : List Nat} (hv : v.phase = .commit lh lh) :
    phaseCalls.wp commit (fun _ v' => v'.phase.isCommit = true) v := by
  refine ⟨trivial, ?_⟩
  rintro log v1 ⟨rfl, hlog⟩
  change phaseCalls.wp (if 0 < log.lh.length then _ else _) _ _
  split
  · apply wp_bind
    apply wp_mono (phases_writeLog v1)
    intro _ v2 hv2
    apply wp_bind
    apply wp_mono (phases_writeHead v2)
    intro _ v3 hv3
    have hbelow := hv3.trans hv2
    rw [hv] at hbelow
    obtain ⟨left, hleft, hsub⟩ := hbelow.commit_right
    apply wp_bind
    apply wp_mono (phases_installTrans hleft hsub)
    intro _ v4 hv4
    refine ⟨⟨lh, hv4⟩, ?_⟩
    rintro _ v5 rfl
    apply wp_mono (phases_writeHead _)
    intro _ v6 hv6
    obtain ⟨rest, hrest, -⟩ := hv6.commit_right
    rw [hrest]
    rfl
  · change v1.phase.isCommit = true
    rw [hv]
    rfl

theorem phases_endOp (hv : v.phase = .inOp) :
    phaseCalls.wp endOp (fun _ v' => v'.phase = .outside) v := by
  refine ⟨hv, ?_⟩
  rintro doCommit v1 ⟨ph, rfl, hph⟩
  cases doCommit with
  | false => exact hph
  | true =>
    obtain ⟨lh, rfl⟩ := hph
    have hstart : (v.setPhase (.commit lh lh)).phase = .commit lh lh := rfl
    change phaseCalls.wp (commit >>= fun _ => call .commitDone) _ _
    apply wp_bind
    apply wp_mono (phases_commit hstart)
    intro _ v2 hv2
    refine ⟨hv2, ?_⟩
    rintro _ v3 rfl
    rfl

def Phase.ofBool : Bool → Phase
  | true => .inOp
  | false => .outside

theorem Phase.Below.ofBool {ph : Phase} {inOp : Bool} (h : Below ph (.ofBool inOp)) :
    ph = .ofBool inOp := by
  cases ph with
  | commit lh left =>
    obtain ⟨more, heq, -⟩ := h
    cases inOp <;> cases heq
  | outside => exact h
  | inOp => exact h

theorem phases_client {inOp : Bool} {held : Fin NBUF → Option Use} {prog : CallM Unit}
    (hclient : Client inOp held prog) {h : Holds} (hheld : h.uses = held)
    (hv : v.phase = .ofBool inOp) :
    (callProtocol.prod phaseCalls).wp prog (fun _ _ => True) (h, v) := by
  induction hclient generalizing h v with
  | done => trivial
  | bread dev blockno hk ih =>
    subst hheld
    refine wp_prod_ask trivial trivial ?_
    rintro i h' v' ⟨hi, rfl⟩ ⟨-, hbelow⟩
    rw [hv] at hbelow
    exact ih i (uses_eq_none.mpr hi) (uses_update h i _) hbelow.ofBool
  | data i hi hk ih =>
    refine wp_prod_ask trivial trivial ?_
    rintro data h' v' rfl rfl
    exact ih data hheld hv
  | setData i data hi hk ih =>
    subst hheld
    refine wp_prod_ask (mt uses_eq_none.mpr hi) trivial ?_
    rintro _ h' v' rfl rfl
    exact ih (uses_setUse hi _) hv
  | logWrite i hi hk ih =>
    subst hheld
    refine wp_prod_ask (mt uses_eq_none.mpr hi) hv ?_
    rintro _ h' v' rfl rfl
    exact ih (uses_setUse hi _) hv
  | bwrite i hi hk ih =>
    subst hheld
    refine wp_prod_ask (mt uses_eq_none.mpr hi) trivial ?_
    rintro _ h' v' rfl hbelow
    have hsame := hbelow.trans (Phase.written_below _ _)
    rw [hv] at hsame
    exact ih (uses_setUse hi _) hsame.ofBool
  | brelse i hi hk ih =>
    subst hheld
    obtain ⟨x, hx, huse⟩ := Option.map_eq_some_iff.mp hi
    refine wp_prod_ask ⟨x.1, by rw [hx, ← huse]⟩ trivial ?_
    rintro _ h' v' rfl rfl
    exact ih (uses_update h i none) hv
  | beginOp hk ih =>
    refine wp_prod_ask trivial hv ?_
    rintro _ h' v' rfl rfl
    exact ih hheld rfl
  | endOp hk ih =>
    apply wp_bind
    apply wp_mono (wp_prod (wp_endOp h) (phases_endOp hv))
    rintro _ ⟨h', v'⟩ ⟨rfl, hv'⟩
    exact ih hheld hv'

end Xv6.Bio
