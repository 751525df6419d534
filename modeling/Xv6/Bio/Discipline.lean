import Xv6.Bio.Cache
import Xv6.Lib.Protocol

/-!
# What a process knows about the buffers it uses

The discipline of `bio.c` as two protocols.  At the level of calls a process
knows which buffers it has locked, for which blocks, and which of them it has
changed; inside the functions it also knows whether it has seen `B_VALID`, set
`B_DIRTY` for a transfer, or owns a reference without the lock.  Every function
body meets the call protocol, and so does every program of `Client`, whose
`end_op` contains the whole of `commit`.
-/

namespace Xv6.Bio

open Lib Log.Control Function Protocol

abbrev Key : Type := Nat × Nat

inductive Stage where
  | locked
  | missing
  | ready
  | modified
  | flushing

/-- The buffers a process has locked, and the one it has a reference to without
the lock. -/
structure View where
  hold : Fin NBUF → Option (Key × Stage)
  extra : Option (Fin NBUF × Key)

namespace View

def setStage (v : View) (i : Fin NBUF) (st : Stage) : View :=
  { v with hold := update v.hold i ((v.hold i).map fun x => (x.1, st)) }

def Usable (v : View) (i : Fin NBUF) : Prop :=
  ∃ key, v.hold i = some (key, .ready) ∨ v.hold i = some (key, .modified)

end View

def cacheProtocol : Protocol CacheSig View where
  pre
    | .scan _ _, v => v.extra = none
    | .acquiresleep i, v => ∃ key, v.extra = some (i, key)
    | .valid i, v => ∃ key, v.hold i = some (key, .locked)
    | .iderw i, v => ∃ key, v.hold i = some (key, .missing) ∨ v.hold i = some (key, .flushing)
    | .setDirty i, v => v.Usable i
    | .setData i _, v => v.Usable i
    | .logAppend i, v => v.Usable i
    | .releasesleep i, v => (∃ key, v.hold i = some (key, .ready)) ∧ v.extra = none
    | .unref i, v => ∃ key, v.extra = some (i, key)
    | _, _ => True
  post
    | .scan dev blockno, v, i, v' => v' = { v with extra := some (i, (dev, blockno)) }
    | .acquiresleep i, v, _, v' => v.hold i = none ∧ ∃ key, v.extra = some (i, key) ∧
        v' = ⟨update v.hold i (some (key, .locked)), none⟩
    | .valid i, v, r, v' => v' = v.setStage i (if r then .ready else .missing)
    | .iderw i, v, _, v' => v' = v.setStage i .ready
    | .setDirty i, v, _, v' => v' = v.setStage i .flushing
    | .setData i _, v, _, v' => v' = v.setStage i .modified
    | .logAppend i, v, _, v' => v' = v.setStage i .ready
    | .releasesleep i, v, _, v' => ∃ key, v.hold i = some (key, .ready) ∧
        v' = ⟨update v.hold i none, some (i, key)⟩
    | .unref _, v, _, v' => v' = { v with extra := none }
    | _, v, _, v' => v' = v

abbrev Holds : Type := Fin NBUF → Option (Key × Use)

def callProtocol : Protocol CallSig Holds where
  pre
    | .setData i _, h => h i ≠ none
    | .logWrite i, h => h i ≠ none
    | .bwrite _ i, h => h i ≠ none
    | .brelse i, h => ∃ key, h i = some (key, .ready)
    | _, _ => True
  post
    | .bread dev blockno, h, i, h' =>
      h i = none ∧ h' = update h i (some ((dev, blockno), .ready))
    | .setData i _, h, _, h' =>
      h' = update h i ((h i).map fun x => (x.1, .modified))
    | .logWrite i, h, _, h' => h' = update h i ((h i).map fun x => (x.1, .ready))
    | .bwrite _ i, h, _, h' => h' = update h i ((h i).map fun x => (x.1, .ready))
    | .brelse i, h, _, h' => h' = update h i none
    | _, h, _, h' => h' = h

def Use.stage : Use → Stage
  | .ready => .ready
  | .modified => .modified

def ofHolds (h : Holds) : View where
  hold := fun i => (h i).map fun x => (x.1, x.2.stage)
  extra := none

variable {h : Holds} {i : Fin NBUF}

theorem ofHolds_usable (hi : h i ≠ none) : (ofHolds h).Usable i := by
  obtain ⟨⟨key, use⟩, hx⟩ := Option.ne_none_iff_exists'.mp hi
  refine ⟨key, ?_⟩
  cases use with
  | ready => exact Or.inl (by simp [ofHolds, hx, Use.stage])
  | modified => exact Or.inr (by simp [ofHolds, hx, Use.stage])

theorem ofHolds_update (h : Holds) (i : Fin NBUF) (x : Option (Key × Use)) :
    ofHolds (update h i x) =
      ⟨update (ofHolds h).hold i (x.map fun x => (x.1, x.2.stage)), none⟩ := by
  unfold ofHolds
  congr 1
  funext j
  by_cases hj : j = i
  · subst hj
    simp
  · simp [hj]

theorem ofHolds_setUse (h : Holds) (i : Fin NBUF) (use : Use) :
    ofHolds (update h i ((h i).map fun x => (x.1, use))) = (ofHolds h).setStage i use.stage := by
  rw [ofHolds_update]
  simp [View.setStage, ofHolds, Function.comp_def]

theorem setStage_setStage (v : View) (i : Fin NBUF) (st st' : Stage) :
    (v.setStage i st).setStage i st' = v.setStage i st' := by
  simp [View.setStage, Function.comp_def]

theorem body_meets (c : Call) (h : Holds) (hpre : callProtocol.pre c h) : cacheProtocol.wp (body c)
      (fun r v => ∃ h', callProtocol.post c h r h' ∧ v = ofHolds h') (ofHolds h) := by
  cases c with
  | bread dev blockno =>
    refine ⟨rfl, ?_⟩
    rintro i v rfl
    refine ⟨⟨_, rfl⟩, ?_⟩
    rintro ⟨⟩ v ⟨hfree, key, hkey, rfl⟩
    cases hkey
    have hnone : h i = none := by simpa [ofHolds] using hfree
    refine ⟨⟨_, by simp; rfl⟩, ?_⟩
    rintro valid v rfl
    have hready : (⟨update (ofHolds h).hold i (some ((dev, blockno), .ready)), none⟩ :
        View) = ofHolds (update h i (some ((dev, blockno), .ready))) := by
      rw [ofHolds_update]
      rfl
    cases valid with
    | true =>
      refine ⟨_, ⟨hnone, rfl⟩, ?_⟩
      rw [← hready]
      simp [View.setStage]
    | false =>
      refine ⟨⟨_, Or.inl (by simp [View.setStage]; rfl)⟩, ?_⟩
      rintro ⟨⟩ v rfl
      refine ⟨_, ⟨hnone, rfl⟩, ?_⟩
      rw [← hready, setStage_setStage]
      simp [View.setStage]
  | bwrite _ i =>
    obtain ⟨x, hx⟩ := Option.ne_none_iff_exists'.mp hpre
    refine ⟨ofHolds_usable hpre, ?_⟩
    rintro ⟨⟩ v rfl
    refine ⟨⟨x.1, Or.inr (by simp [View.setStage, ofHolds, hx])⟩, ?_⟩
    rintro ⟨⟩ v rfl
    refine ⟨_, rfl, ?_⟩
    rw [setStage_setStage, ofHolds_setUse]
    rfl
  | brelse i =>
    obtain ⟨key, hx⟩ := hpre
    refine ⟨⟨⟨key, by simp [ofHolds, hx, Use.stage]⟩, rfl⟩, ?_⟩
    rintro ⟨⟩ v ⟨key', -, rfl⟩
    refine ⟨⟨key', rfl⟩, ?_⟩
    rintro ⟨⟩ v rfl
    refine ⟨_, rfl, ?_⟩
    rw [ofHolds_update]
    rfl
  | logWrite i =>
    refine ⟨trivial, ?_⟩
    rintro ⟨⟩ v rfl
    refine ⟨ofHolds_usable hpre, ?_⟩
    rintro ⟨⟩ v rfl
    exact ⟨_, rfl, (ofHolds_setUse h i .ready).symm⟩
  | setData i data =>
    refine ⟨ofHolds_usable hpre, ?_⟩
    rintro ⟨⟩ v rfl
    exact ⟨_, rfl, (ofHolds_setUse h i .modified).symm⟩
  | _ =>
    refine ⟨trivial, ?_⟩
    rintro r v rfl
    exact ⟨h, rfl, rfl⟩

theorem wp_copy {w : Writer} {x y : Fin NBUF} {kx ky : Key} (hx : h x = some (kx, .ready))
    (hy : h y = some (ky, .ready)) (hne : x ≠ y) :
    callProtocol.wp (do memmove x y; call (.bwrite w x); call (.brelse y); call (.brelse x))
      (fun _ h' => h' = update (update h y none) x none) h := by
  apply wp_bind
  refine ⟨trivial, ?_⟩
  rintro data h1 rfl
  refine ⟨by simp [callProtocol, hx], ?_⟩
  rintro ⟨⟩ h2 rfl
  refine ⟨by simp [callProtocol, hx], ?_⟩
  rintro ⟨⟩ h3 rfl
  refine ⟨⟨ky, by simp [hne.symm, hy]⟩, ?_⟩
  rintro ⟨⟩ h4 rfl
  refine ⟨⟨kx, by simp [hne, hx]⟩, ?_⟩
  rintro ⟨⟩ h5 rfl
  funext j
  by_cases hjx : j = x
  · subst hjx
    simp
  · by_cases hjy : j = y
    · subst hjy
      simp [hjx]
    · simp [hjx, hjy]

theorem update_release {h' : Holds} {x y : Fin NBUF} (hx : h x = none) (hy : h y = none)
    (hsame : ∀ j, j ≠ x → j ≠ y → h' j = h j) : update (update h' y none) x none = h := by
  funext j
  by_cases hjx : j = x
  · subst hjx
    simp [hx]
  · by_cases hjy : j = y
    · subst hjy
      simp [hjx, hy]
    · simp [hjx, hjy, hsame]

theorem wp_writeLog (h : Holds) : callProtocol.wp writeLog (fun _ h' => h' = h) h := by
  refine ⟨trivial, ?_⟩
  rintro log h1 rfl
  apply wp_forM (I := fun h' => h' = h1) rfl
  rintro tail - h rfl
  refine ⟨trivial, ?_⟩
  rintro dst h1 ⟨hdst, rfl⟩
  refine ⟨trivial, ?_⟩
  rintro src h2 ⟨hsrc, rfl⟩
  have hne : dst ≠ src := by
    rintro rfl
    simp at hsrc
  rw [update_of_ne hne.symm] at hsrc
  apply wp_mono (wp_copy (x := dst) (y := src) (by simp [hne]; rfl) (by simp; rfl) hne)
  rintro _ h3 rfl
  exact update_release hdst hsrc fun j hjx hjy => by simp [hjx, hjy]

theorem wp_installTrans (h : Holds) : callProtocol.wp installTrans (fun _ h' => h' = h) h := by
  refine ⟨trivial, ?_⟩
  rintro log h1 rfl
  apply wp_forM (I := fun h' => h' = h1) rfl
  rintro tail - h rfl
  refine ⟨trivial, ?_⟩
  rintro lbuf h1 ⟨hlbuf, rfl⟩
  refine ⟨trivial, ?_⟩
  rintro dbuf h2 ⟨hdbuf, rfl⟩
  have hne : dbuf ≠ lbuf := by
    rintro rfl
    simp at hdbuf
  rw [update_of_ne hne] at hdbuf
  apply wp_mono
    (wp_copy (x := dbuf) (y := lbuf) (by simp; rfl) (by simp [hne.symm]; rfl) hne)
  rintro _ h3 rfl
  exact update_release hdbuf hlbuf fun j hjx hjy => by simp [hjx, hjy]

theorem wp_writeHead (h : Holds) : callProtocol.wp writeHead (fun _ h' => h' = h) h := by
  refine ⟨trivial, ?_⟩
  rintro log h1 rfl
  refine ⟨trivial, ?_⟩
  rintro buf h2 ⟨hbuf, rfl⟩
  refine ⟨trivial, ?_⟩
  rintro hb h3 rfl
  refine ⟨by simp [callProtocol], ?_⟩
  rintro ⟨⟩ h4 rfl
  refine ⟨by simp [callProtocol], ?_⟩
  rintro ⟨⟩ h5 rfl
  refine ⟨⟨_, by simp; rfl⟩, ?_⟩
  rintro ⟨⟩ h6 rfl
  change update _ buf none = h1
  simp only [update_idem]
  rw [← hbuf, update_eq_self]

theorem wp_commit (h : Holds) : callProtocol.wp commit (fun _ h' => h' = h) h := by
  refine ⟨trivial, ?_⟩
  rintro log h1 rfl
  change callProtocol.wp (if 0 < log.lh.length then _ else _) _ _
  split_ifs
  · apply wp_bind
    apply wp_mono (wp_writeLog h1)
    rintro _ h rfl
    apply wp_bind
    apply wp_mono (wp_writeHead h)
    rintro _ h rfl
    apply wp_bind
    apply wp_mono (wp_installTrans h)
    rintro _ h rfl
    refine ⟨trivial, ?_⟩
    rintro _ h rfl
    exact wp_writeHead h
  · rfl

theorem wp_endOp (h : Holds) : callProtocol.wp endOp (fun _ h' => h' = h) h := by
  refine ⟨trivial, ?_⟩
  rintro doCommit h1 rfl
  change callProtocol.wp (if doCommit = true then _ else _) _ _
  split_ifs
  · apply wp_bind
    apply wp_mono (wp_commit h1)
    rintro _ h rfl
    exact ⟨trivial, fun _ _ hpost => hpost⟩
  · rfl

def Holds.uses (h : Holds) : Fin NBUF → Option Use := fun i => (h i).map Prod.snd

theorem uses_update (h : Holds) (i : Fin NBUF) (x : Option (Key × Use)) :
    Holds.uses (update h i x) = update h.uses i (x.map Prod.snd) := by
  funext j
  by_cases hj : j = i
  · subst hj
    simp [Holds.uses]
  · simp [Holds.uses, hj]

theorem uses_eq_none : h.uses i = none ↔ h i = none := by
  simp [Holds.uses]

theorem uses_setUse (hi : h.uses i ≠ none) (use : Use) :
    Holds.uses (update h i ((h i).map fun x => (x.1, use))) = update h.uses i (some use) := by
  rw [uses_update]
  obtain ⟨x, hx⟩ := Option.ne_none_iff_exists'.mp (mt uses_eq_none.mpr hi)
  simp [hx]

end Xv6.Bio
