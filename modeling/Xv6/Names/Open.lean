import Xv6.Lib.Ensures
import Xv6.Names.System

/-!
# A failing `open`

`sys_open` run by one process, on the state behind the system calls and the rest of the
disk.  The lookups on its way only take references and give them back: no inode loses its last
one, so that nothing is freed.  A file that `create` has made keeps its inode.
-/

namespace Xv6.Names

open Lib Fs Function List

variable {P D : Type}

/-- The contents of the files, the block numbers of the inodes and the bitmap of free blocks,
as far as `State` leaves them out: `itrunc` and `writei` change them in some way, and so does
`readi` where the entry lies in a block that `bmap` allocates first. -/
structure Medium (D : Type) where
  itrunc : Nat → D → D
  writei : Nat → Nat → Dirent → D → D
  hole : Nat → Nat → D → Bool
  bmap : Nat → Nat → D → D

namespace Medium

def effect (e : Medium D) (s : State P) : Op → D → D
  | .reap i, d =>
    let x := s.slots i
    if x.valid ∧ x.copy.nlink = 0 ∧ x.ref = 1 then e.itrunc i d else d
  | .writeEnt i off de, d => e.writei i off de d
  | .readEnt i off, d => if e.hole i off d then e.bmap i off d else d
  | _, d => d

/-- Every entry of every directory lies in a block of its own inode. -/
def Filled (e : Medium D) (x : State P × D) : Prop :=
  ∀ dp off, off < (x.1.ents dp).length → e.hole dp off x.2 = false

variable [DecidableEq P]

def handler (e : Medium D) (p : P) : Handler FsSig (State P × D) := fun o x =>
  match Names.handler p o x.1 with
  | .ok r s => .ok r (s, e.effect x.1 o x.2)
  | .blocked => .blocked
  | .panic msg => .panic msg

theorem handler_inv {e : Medium D} {p : P} {o : Op} {x y : State P × D} {r : FsSig.Ret o}
    (h : e.handler p o x = .ok r y) :
    Names.handler p o x.1 = .ok r y.1 ∧ y.2 = e.effect x.1 o x.2 := by
  unfold handler at h
  split at h
  · case _ r' s hop =>
    obtain ⟨rfl, rfl⟩ := Outcome.ok.inj h
    exact ⟨hop, rfl⟩
  · cases h
  · cases h

end Medium

namespace State

def find (s : State P) (dp : Nat) (name : Name) : Option Nat :=
  ((s.ents dp).find? fun de => de.inum != 0 && name == de.name).map Dirent.inum

def start (s : State P) (p : P) (path : List Byte) : Nat :=
  if path.head? = some slash then ROOTINO else s.cwd p

def Named (s : State P) (i : Nat) : Prop :=
  (s.disk i).kind ≠ .none → (s.disk i).nlink = 0 → 1 ≤ (s.slots i).ref

/-- The cache agrees with the disk, and the inodes that a path can lead to have a name or are
in use. -/
structure Sane (s : State P) (p : P) : Prop where
  cached : ∀ i, 1 ≤ (s.slots i).ref → (s.slots i).valid = true →
    (s.slots i).copy = s.disk i ∧ (s.disk i).kind ≠ .none
  cwd : 1 ≤ (s.slots (s.cwd p)).ref
  root : s.Named ROOTINO
  ents : ∀ dp, ∀ de ∈ s.ents dp, de.inum ≠ 0 → s.Named de.inum

theorem Sane.find {s : State P} {p : P} (h : s.Sane p) {dp i : Nat} {name : Name}
    (hi : s.find dp name = some i) : s.Named i := by
  obtain ⟨de, hde, rfl⟩ := Option.map_eq_some_iff.mp hi
  have hp := find?_some hde
  simp only [Bool.and_eq_true, bne_iff_ne] at hp
  exact h.ents dp de (mem_of_find?_eq_some hde) hp.1

end State

/-- From `x` to `y` the process has taken the references of `hold`, and nothing else is
different but the locks and what is cached. -/
structure Reads (x : State P × D) (hold : List Nat) (y : State P × D) : Prop where
  disk : y.1.disk = x.1.disk
  ents : y.1.ents = x.1.ents
  files : y.1.files = x.1.files
  cwd : y.1.cwd = x.1.cwd
  ofile : y.1.ofile = x.1.ofile
  rest : y.2 = x.2
  cached : ∀ i, 1 ≤ (y.1.slots i).ref → (y.1.slots i).valid = true →
    (y.1.slots i).copy = x.1.disk i ∧ (x.1.disk i).kind ≠ .none
  refs : ∀ i, (y.1.slots i).ref = (x.1.slots i).ref + hold.count i

variable {e : Medium D} {p : P} {x y z : State P × D} {hold : List Nat} {i dp : Nat} {name : Name}

namespace Reads

theorem refl (h : x.1.Sane p) : Reads x [] x :=
  ⟨rfl, rfl, rfl, rfl, rfl, rfl, h.cached, fun _ => rfl⟩

theorem one_le_ref (h : Reads x hold y) (hi : i ∈ hold) : 1 ≤ (y.1.slots i).ref := by
  have hcount := count_pos_iff.mpr hi
  rw [h.refs]
  omega

theorem slot {hold' : List Nat} {c : Slot P} {n : Nat} (h : Reads x hold y)
    (hs : { y.1.setSlot i c with cached := n } = z.1) (hrest : z.2 = y.2)
    (hc : c.valid = true → 1 ≤ c.ref → c.copy = x.1.disk i ∧ (x.1.disk i).kind ≠ .none)
    (href : c.ref = (x.1.slots i).ref + hold'.count i)
    (hcount : ∀ j ≠ i, hold'.count j = hold.count j) : Reads x hold' z := by
  obtain ⟨s, d⟩ := z
  subst hs hrest
  refine ⟨h.disk, h.ents, h.files, h.cwd, h.ofile, h.rest, fun j hj hvalid => ?_, fun j => ?_⟩
  · by_cases hji : j = i
    · subst hji
      simp only [State.setSlot, update_self] at hj hvalid ⊢
      exact hc hvalid hj
    · simp only [State.setSlot, update_of_ne hji] at hj hvalid ⊢
      exact h.cached j hj hvalid
  · by_cases hji : j = i
    · subst hji
      simp only [State.setSlot, update_self]
      exact href
    · simp only [State.setSlot, update_of_ne hji]
      rw [h.refs, hcount j hji]

theorem perm {hold' : List Nat} (h : Reads x hold y) (hperm : hold.Perm hold') : Reads x hold' y :=
  { h with refs := fun i => by rw [h.refs, hperm.count_eq] }

variable [DecidableEq P]

variable {r : Unit}

theorem iget (h : Reads x hold y)
    (hop : e.handler p (.iget i) y = .ok r z) : Reads x (i :: hold) z := by
  obtain ⟨hop, hrest⟩ := Medium.handler_inv hop
  have hcount : ∀ j ≠ i, (i :: hold).count j = hold.count j := fun j hj =>
    count_cons_of_ne (Ne.symm hj)
  have hi := h.refs i
  simp only [Names.handler, State.iget] at hop
  split_ifs at hop with hpos hroom
  · obtain ⟨-, hz⟩ := Outcome.ok.inj hop
    refine h.slot (n := y.1.cached) hz hrest (fun hvalid _ => h.cached i hpos hvalid) ?_ hcount
    simp only [count_cons_self]
    omega
  · obtain ⟨-, hz⟩ := Outcome.ok.inj hop
    refine h.slot hz hrest (fun hvalid => by cases hvalid) ?_ hcount
    simp only [count_cons_self]
    omega

theorem idupCwd {r : Nat} (h : Reads x hold y) (hcwd : 1 ≤ (x.1.slots (x.1.cwd p)).ref)
    (hop : e.handler p .idupCwd y = .ok r z) : r = x.1.cwd p ∧ Reads x (r :: hold) z := by
  obtain ⟨hop, hrest⟩ := Medium.handler_inv hop
  obtain ⟨rfl, hz⟩ := Outcome.ok.inj hop
  have hi := h.refs (y.1.cwd p)
  rw [← h.cwd] at hcwd ⊢
  refine ⟨rfl, h.slot (n := y.1.cached) hz hrest ?_ ?_ fun j hj =>
    count_cons_of_ne (Ne.symm hj)⟩
  · exact fun hvalid _ => h.cached _ (by omega) hvalid
  · simp only [count_cons_self]
    omega

theorem unref (h : Reads x (i :: hold) y)
    (hop : e.handler p (.unref i) y = .ok r z) : Reads x hold z := by
  obtain ⟨hop, hrest⟩ := Medium.handler_inv hop
  obtain ⟨-, hz⟩ := Outcome.ok.inj hop
  have hi := h.refs i
  rw [count_cons_self] at hi
  refine h.slot hz hrest (fun hvalid _ => h.cached i (by omega) hvalid) ?_ fun j hj =>
    (count_cons_of_ne (Ne.symm hj)).symm
  simp only
  omega

theorem lock {site : Site} (h : Reads x hold y)
    (hop : e.handler p (.acquiresleep site i) y = .ok r z) : Reads x hold z := by
  obtain ⟨hop, hrest⟩ := Medium.handler_inv hop
  simp only [Names.handler] at hop
  split at hop
  · obtain ⟨-, hz⟩ := Outcome.ok.inj hop
    exact h.slot (n := y.1.cached) hz hrest (fun hvalid hpos => h.cached i hpos hvalid) (h.refs i)
      fun _ _ => rfl
  · cases hop

theorem load (h : Reads x hold y) (hi : i ∈ hold) (hop : e.handler p (.load i) y = .ok r z) :
    Reads x hold z ∧ (z.1.slots i).copy = x.1.disk i := by
  obtain ⟨hop, hrest⟩ := Medium.handler_inv hop
  simp only [Names.handler, State.load] at hop
  split_ifs at hop with hvalid hkind
  · obtain ⟨-, hz⟩ := Outcome.ok.inj hop
    rw [show z = y from Prod.ext hz.symm hrest]
    exact ⟨h, (h.cached i (h.one_le_ref hi) hvalid).1⟩
  · obtain ⟨-, hz⟩ := Outcome.ok.inj hop
    refine ⟨h.slot (n := y.1.cached) hz hrest (fun _ _ => ?_) (h.refs i) fun _ _ => rfl, ?_⟩
    · rw [← h.disk]
      exact ⟨rfl, hkind⟩
    · rw [← hz, ← h.disk]
      simp only [State.setSlot, update_self]

theorem readEnt {off : Nat} {de : Dirent} (h : Reads x hold y) (hfilled : e.Filled x)
    (hop : e.handler p (.readEnt dp off) y = .ok de z) :
    z = y ∧ (x.1.ents dp)[off]? = some de := by
  obtain ⟨hop, hrest⟩ := Medium.handler_inv hop
  simp only [Names.handler] at hop
  split at hop
  · case _ de' hde =>
    obtain ⟨rfl, hz⟩ := Outcome.ok.inj hop
    rw [h.ents] at hde
    have hhole : e.hole dp off y.2 = false := by
      rw [h.rest]
      exact hfilled dp off (List.getElem?_eq_some_iff.mp hde).1
    refine ⟨Prod.ext hz.symm ?_, hde⟩
    simpa only [Medium.effect, hhole, Bool.false_eq_true, if_false] using hrest
  · cases hop

theorem reap (h : Reads x hold y) (hi : i ∈ hold)
    (hnamed : x.1.Named i) (hop : e.handler p (.reap i) y = .ok r z) : z = y := by
  obtain ⟨hop, hrest⟩ := Medium.handler_inv hop
  obtain ⟨-, hz⟩ := Outcome.ok.inj hop
  have hkeep : ¬ ((y.1.slots i).valid = true ∧ (y.1.slots i).copy.nlink = 0 ∧
      (y.1.slots i).ref = 1) := by
    rintro ⟨hvalid, hnlink, hone⟩
    obtain ⟨hcopy, hkind⟩ := h.cached i hone.ge hvalid
    rw [hcopy] at hnlink
    have hcount := count_pos_iff.mpr hi
    have hrefs := h.refs i
    have hother := hnamed hkind hnlink
    omega
  refine Prod.ext ?_ ?_
  · rw [← hz, State.reap, if_neg hkeep]
  · rw [hrest]
    exact if_neg hkeep

end Reads

/-- The inode `i` has been given to a new file, and the tables of open files are as in `s`. -/
structure Made (s : State P) (i : Nat) (t : State P) : Prop where
  file : (t.disk i).kind = .file
  nlink : (t.disk i).nlink = 1
  cached : (t.slots i).valid = true → (t.slots i).copy.nlink = 1
  files : t.files = s.files
  ofile : t.ofile = s.ofile

namespace Made

variable {s t u : State P} {j : Nat}

theorem slot {c : Slot P} {n : Nat} (h : Made s i t) (hu : { t.setSlot j c with cached := n } = u)
    (hc : j = i → c.valid = true → c.copy.nlink = 1) : Made s i u := by
  subst hu
  refine ⟨h.file, h.nlink, fun hvalid => ?_, h.files, h.ofile⟩
  simp only [State.setSlot] at hvalid ⊢
  by_cases hji : i = j
  · subst hji
    rw [update_self] at hvalid ⊢
    exact hc rfl hvalid
  · rw [update_of_ne hji] at hvalid ⊢
    exact h.cached hvalid

theorem same {c : Slot P} {n : Nat} (h : Made s i t) (hu : { t.setSlot j c with cached := n } = u)
    (hvalid : c.valid = (t.slots j).valid) (hcopy : c.copy = (t.slots j).copy) : Made s i u := by
  refine h.slot hu ?_
  rintro rfl
  rw [hvalid, hcopy]
  exact h.cached

theorem reap (h : Made s i t) : Made s i (t.reap j) := by
  rw [State.reap]
  split_ifs with hfree
  · have hij : i ≠ j := by
      rintro rfl
      have hone := h.cached hfree.1
      rw [hfree.2.1] at hone
      cases hone
    refine ⟨?_, ?_, ?_, h.files, h.ofile⟩
    · simp only [State.free, update_of_ne hij]
      exact h.file
    · simp only [State.free, update_of_ne hij]
      exact h.nlink
    · simp only [State.free, update_of_ne hij]
      exact h.cached
  · exact h

end Made

variable [DecidableEq P]

def Op.Quiet : Op → Prop
  | .checkRef _ | .checkHeld _ | .inode _ | .size _ => True
  | _ => False

variable {α : Type}

variable {site : Site}

def taken {α : Type} (r : Option (Nat × α)) : List Nat := (r.map Prod.fst).toList

variable {path : List Byte}

def Op.Gentle : Op → Prop
  | .addNlink _ _ | .ialloc _ _ | .initInode _ _ _ | .fdopen _ _ => False
  | _ => True

theorem Made.step {s t u : State P} {o : Op} {r : FsSig.Ret o} (h : Made s i t) (ho : o.Gentle)
    (hop : handler p o t = .ok r u) : Made s i u := by
  cases o with
  | addNlink | ialloc | initInode | fdopen => exact ho.elim
  | iget j =>
    simp only [handler, State.iget] at hop
    split_ifs at hop
    · exact h.same (n := t.cached) (Outcome.ok.inj hop).2 rfl rfl
    · exact h.slot (Outcome.ok.inj hop).2 fun _ hvalid => by cases hvalid
  | load j =>
    simp only [handler, State.load] at hop
    split_ifs at hop
    · exact (Outcome.ok.inj hop).2 ▸ h
    · refine h.slot (n := t.cached) (Outcome.ok.inj hop).2 ?_
      rintro rfl _
      exact h.nlink
  | reap j => exact (Outcome.ok.inj hop).2 ▸ h.reap
  | unref j => exact h.same (Outcome.ok.inj hop).2 rfl rfl
  | idupCwd | releasesleep j => exact h.same (n := t.cached) (Outcome.ok.inj hop).2 rfl rfl
  | acquiresleep site j =>
    simp only [handler] at hop
    split at hop
    · exact h.same (n := t.cached) (Outcome.ok.inj hop).2 rfl rfl
    · cases hop
  | writeEnt dp off de =>
    simp only [handler] at hop
    split_ifs at hop
    · rw [← (Outcome.ok.inj hop).2]
      exact ⟨h.file, h.nlink, h.cached, h.files, h.ofile⟩
    · exact (Outcome.ok.inj hop).2 ▸ h
  | checkRef | checkHeld =>
    simp only [handler] at hop
    split_ifs at hop
    exact (Outcome.ok.inj hop).2 ▸ h
  | readEnt dp off =>
    simp only [handler] at hop
    split at hop
    · exact (Outcome.ok.inj hop).2 ▸ h
    · cases hop
  | inode | size => exact (Outcome.ok.inj hop).2 ▸ h
  | panic msg => cases hop

/-- There is no free `struct file`, or no free descriptor. -/
def State.Full (s : State P) (p : P) : Prop := s.filealloc = none ∨ s.fdalloc p = none

variable {omode : BitVec 32}

def Untouched (x y : State P × D) : Prop :=
  y.1.disk = x.1.disk ∧ y.1.ents = x.1.ents ∧ y.2 = x.2

end Xv6.Names
