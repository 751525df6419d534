import Xv6.Fs.Directory

/-!
# Path resolution

`skipelem`, `namex`, `namei` and `nameiparent` of `fs.c` on a file tree, and what they compute: the
lookup of one path element after the other.  The tree is what the walk reads of the disk, and does
not change during it.
-/

namespace Xv6.Resolve

open Fs Names List

structure Tree where
  type : Nat → BitVec 16
  content : Nat → List Byte

/-- The loop of `dirlookup`, with the rounds it can make. -/
def dirLoop (C name : List Byte) : Nat → Nat → Except String (Option Nat)
  | 0, _ => .ok none
  | rounds + 1, off =>
    if off < C.length then
      let de := (C.drop off).take 16
      if de.length ≠ 16 then .error "dirlookup read"
      else if entryInum de = 0 then dirLoop C name rounds (off + 16)
      else if namecmp name (de.drop 2) = 0 then .ok (some (entryInum de))
      else dirLoop C name rounds (off + 16)
    else
      .ok none

def dirlookup (t : Tree) (dp : Nat) (name : List Byte) : Except String (Option Nat) :=
  if t.type dp ≠ T_DIR then .error "dirlookup not DIR"
  else dirLoop (t.content dp) name ((t.content dp).length / 16 + 1) 0

/-- What `skipelem` leaves in the buffer `name` for the element `s`. -/
def copyElem (s name : List Byte) : List Byte :=
  if s.length ≥ DIRSIZ then s.take DIRSIZ ++ name.drop DIRSIZ
  else s ++ 0 :: name.drop (s.length + 1)

def skipelem (path name : List Byte) : Option (List Byte × List Byte) :=
  let path := path.dropWhile (· == slash)
  if path = [] then
    none
  else
    let s := path.takeWhile (· != slash)
    let path := path.dropWhile (· != slash)
    some (path.dropWhile (· == slash), copyElem s name)

/-- The loop of `namex`; `none` if it has not ended after the given number of rounds.  An inode of
type 0 makes `ilock` panic. -/
def namexLoop (t : Tree) (parent : Bool) :
    Nat → Nat → List Byte → List Byte → Option (Except String (Option Nat × List Byte))
  | 0, _, _, _ => none
  | rounds + 1, ip, path, name =>
    match skipelem path name with
    | none => some (.ok (if parent then none else some ip, name))
    | some (path, name) =>
      if t.type ip = 0 then some (.error "ilock: no type")
      else if t.type ip ≠ T_DIR then some (.ok (none, name))
      -- stop one level early
      else if parent ∧ path = [] then some (.ok (some ip, name))
      else
        match dirlookup t ip name with
        | .error e => some (.error e)
        | .ok none => some (.ok (none, name))
        | .ok (some next) => namexLoop t parent rounds next path name

/-- Where a walk starts, for a process in the directory `cwd`. -/
def start (cwd : Nat) (path : List Byte) : Nat :=
  if path.head? = some slash then ROOTINO else cwd

def namex (t : Tree) (cwd rounds : Nat) (path : List Byte) (parent : Bool) (name : List Byte) :
    Option (Except String (Option Nat × List Byte)) :=
  namexLoop t parent rounds (start cwd path) path name

/-- `namei`; `stack` is what is in its uninitialised buffer. -/
def namei (t : Tree) (cwd rounds : Nat) (stack path : List Byte) :
    Option (Except String (Option Nat)) :=
  (namex t cwd rounds path false stack).map fun r => r.map Prod.fst

def nameiparent (t : Tree) (cwd rounds : Nat) (path name : List Byte) :
    Option (Except String (Option Nat × List Byte)) :=
  namex t cwd rounds path true name

def isDirectory (t : Tree) (ip : Nat) : Except String Bool :=
  if t.type ip = 0 then .error "ilock: no type" else .ok (decide (t.type ip = T_DIR))

def lookup (t : Tree) (ip : Nat) (e : Name) : Except String (Option Nat) := do
  if ← isDirectory t ip then dirlookup t ip e else return none

def walk (t : Tree) (ip : Nat) : List Name → Except String (Option Nat)
  | [] => .ok (some ip)
  | e :: es => do
    match ← lookup t ip e with
    | none => return none
    | some next => walk t next es

def walkParent (t : Tree) (ip : Nat) (es : List Name) : Except String (Option Nat) := do
  match ← walk t ip es with
  | none => return none
  | some dp => return if ← isDirectory t dp then some dp else none

/-- The name in a buffer of `DIRSIZ` bytes, terminated or not. -/
def nameIn (name : List Byte) : Name := (cstr name).take DIRSIZ

/-- What the caller of `nameiparent` has: an inode and a name. -/
def found (r : Option Nat × List Byte) : Option (Nat × Name) := r.1.map fun dp => (dp, nameIn r.2)

theorem nameIn_of_not_mem {e : Name} (h : 0 ∉ e) : nameIn e = e.take DIRSIZ := by
  rw [nameIn, cstr_of_not_mem h]

theorem nameIn_nameIn (name : List Byte) : nameIn (nameIn name) = nameIn name := by
  have hnul : 0 ∉ nameIn name := fun hmem => not_mem_cstr name (mem_of_mem_take hmem)
  rw [nameIn_of_not_mem hnul, nameIn, take_take, Nat.min_self]

theorem nameIn_copyElem {s : List Byte} (h : 0 ∉ s) (name : List Byte) :
    nameIn (copyElem s name) = s.take DIRSIZ := by
  unfold nameIn copyElem
  split_ifs with hlen
  · have hpre : cstr (s.take DIRSIZ ++ name.drop DIRSIZ) =
        s.take DIRSIZ ++ cstr (name.drop DIRSIZ) := by
      apply takeWhile_append_of_pos
      intro c hc
      have hne : c ≠ 0 := fun hzero => h (hzero ▸ mem_of_mem_take hc)
      simpa using hne
    rw [hpre, take_append_of_le_length (by rw [length_take]; omega), take_take, Nat.min_self]
  · have hpre : cstr (s ++ 0 :: name.drop (s.length + 1)) =
        s ++ cstr (0 :: name.drop (s.length + 1)) := by
      apply takeWhile_append_of_pos
      intro c hc
      have hne : c ≠ 0 := fun hzero => h (hzero ▸ hc)
      simpa using hne
    rw [hpre, cstr_eq, headD_cons, if_pos rfl, append_nil]

theorem skipelem_none {path : List Byte} (h : Names.skipelem path = none) (name : List Byte) :
    skipelem path name = none := by
  unfold Names.skipelem at h
  simp only at h
  split_ifs at h with hnil
  rw [skipelem]
  simp only [if_pos hnil]

theorem skipelem_some {path rest : List Byte} {e : Name} (hnul : 0 ∉ path)
    (h : Names.skipelem path = some (e, rest)) (name : List Byte) :
    ∃ name', skipelem path name = some (rest, name') ∧ nameIn name' = e ∧ 0 ∉ rest ∧ 0 ∉ e ∧
      e.length ≤ DIRSIZ := by
  unfold Names.skipelem at h
  simp only at h
  split_ifs at h with hnil
  cases h
  have helem : 0 ∉ (path.dropWhile (· == slash)).takeWhile (· != slash) := fun hmem =>
    hnul ((dropWhile_sublist _).mem ((takeWhile_sublist _).mem hmem))
  refine ⟨_, by rw [skipelem]; simp only [if_neg hnil], nameIn_copyElem helem name, ?_, ?_, ?_⟩
  · exact fun hmem => hnul ((dropWhile_sublist _).mem ((dropWhile_sublist _).mem
      ((dropWhile_sublist _).mem hmem)))
  · exact fun hmem => helem (mem_of_mem_take hmem)
  · exact length_take_le _ _

theorem dirLoop_congr {C name name' : List Byte} (h : nameIn name = nameIn name')
    (rounds off : Nat) :
    dirLoop C name rounds off = dirLoop C name' rounds off := by
  induction rounds generalizing off with
  | zero => rfl
  | succ rounds ih =>
    have hcmp : ∀ q, namecmp name q = 0 ↔ namecmp name' q = 0 := fun q => by
      rw [namecmp, namecmp, strncmp_eq_zero_iff, strncmp_eq_zero_iff]
      exact Eq.congr_left h
    simp only [dirLoop, ih, hcmp]

theorem dirlookup_congr {name name' : List Byte} (h : nameIn name = nameIn name') (t : Tree)
    (dp : Nat) : dirlookup t dp name = dirlookup t dp name' := by
  unfold dirlookup
  rw [dirLoop_congr h]

variable {t : Tree} {rounds ip : Nat} {path name : List Byte}

theorem namexLoop_nil {parent : Bool} (h : elems path = []) (hrounds : 0 < rounds) :
    namexLoop t parent rounds ip path name = some
      (.ok (if parent then none else some ip, name)) := by
  obtain ⟨n, rfl⟩ := Nat.exists_eq_add_of_lt hrounds
  have hskip : Names.skipelem path = none := by
    rw [elems_skipelem] at h
    cases hskip : Names.skipelem path with
    | none => rfl
    | some x => simp [hskip] at h
  rw [Nat.zero_add, namexLoop, skipelem_none hskip]

theorem namexLoop_cons (t : Tree) (parent : Bool) (rounds ip : Nat) (name : List Byte) {e : Name}
    {es : List Name} (hnul : 0 ∉ path) (h : elems path = e :: es) :
    ∃ rest name', elems rest = es ∧ 0 ∉ rest ∧ nameIn name' = e ∧
      namexLoop t parent (rounds + 1) ip path name =
        if t.type ip = 0 then some (.error "ilock: no type")
        else if t.type ip ≠ T_DIR then some (.ok (none, name'))
        else if parent ∧ es = [] then some (.ok (some ip, name'))
        else
          match dirlookup t ip e with
          | .error e => some (.error e)
          | .ok none => some (.ok (none, name'))
          | .ok (some next) => namexLoop t parent rounds next rest name' := by
  rw [elems_skipelem] at h
  cases hskip : Names.skipelem path with
  | none => simp [hskip] at h
  | some x =>
    obtain ⟨e', rest⟩ := x
    simp only [hskip, List.cons.injEq] at h
    obtain ⟨rfl, rfl⟩ := h
    obtain ⟨name', hstep, hname, hrest, hnulElem, hlen⟩ := skipelem_some hnul hskip name
    have hlast : elems rest = [] ↔ rest = [] := by
      exact elems_rest hskip
    have hlook : dirlookup t ip name' = dirlookup t ip e' := by
      apply dirlookup_congr
      rw [hname, nameIn_of_not_mem hnulElem, take_of_length_le hlen]
    refine ⟨rest, name', rfl, hrest, hname, ?_⟩
    rw [namexLoop, hstep]
    simp only [hlook, hlast]

theorem walk_cons (t : Tree) (ip : Nat) (e : Name) (es : List Name) : walk t ip (e :: es) =
      if t.type ip = 0 then .error "ilock: no type"
      else if t.type ip ≠ T_DIR then .ok none
      else
        match dirlookup t ip e with
        | .error e => .error e
        | .ok none => .ok none
        | .ok (some next) => walk t next es := by
  rw [walk, lookup, isDirectory]
  by_cases hzero : t.type ip = 0
  · rw [if_pos hzero, if_pos hzero]
    rfl
  · by_cases hdir : t.type ip = T_DIR
    · rw [if_neg hzero, if_neg hzero, if_neg (not_not.mpr hdir), decide_eq_true hdir]
      change (dirlookup t ip e).bind _ = _
      cases dirlookup t ip e with
      | error e => rfl
      | ok r =>
        cases r with
        | none => rfl
        | some next => rfl
    · rw [if_neg hzero, if_neg hzero, if_pos hdir, decide_eq_false hdir]
      rfl

theorem namexLoop_walk (hnul : 0 ∉ path) (hrounds : (elems path).length < rounds) :
    (namexLoop t false rounds ip path name).map (fun r => r.map Prod.fst) =
      some (walk t ip (elems path)) := by
  induction hes : elems path generalizing rounds ip path name with
  | nil =>
    rw [namexLoop_nil hes (by omega)]
    rfl
  | cons e es ih =>
    rw [hes, length_cons] at hrounds
    obtain ⟨n, rfl⟩ : ∃ n, rounds = n + 1 := ⟨rounds - 1, by omega⟩
    obtain ⟨rest, name', hrest, hnul', -, hround⟩ :=
      namexLoop_cons t false n ip name hnul hes
    rw [hround, walk_cons]
    split_ifs with hzero hdir hlast
    · rfl
    · rfl
    · cases hlast.1
    · cases dirlookup t ip e with
      | error e => rfl
      | ok r =>
        cases r with
        | none => rfl
        | some next => exact ih hnul' (by rw [hrest]; omega) hrest

theorem namexLoop_running {x : Nat} (hnul : 0 ∉ path)
    (hwalk : walk t ip (elems path) = .ok (some x)) (hrounds : rounds ≤ (elems path).length) :
    namexLoop t false rounds ip path name = none := by
  induction hes : elems path generalizing rounds ip path name with
  | nil =>
    rw [hes] at hrounds
    obtain rfl : rounds = 0 := Nat.le_zero.mp hrounds
    rfl
  | cons e es ih =>
    cases rounds with
    | zero => rfl
    | succ n =>
      rw [hes] at hwalk hrounds
      rw [length_cons] at hrounds
      obtain ⟨rest, name', hrest, hnul', -, hround⟩ := namexLoop_cons t false n ip name hnul hes
      rw [walk_cons] at hwalk
      by_cases hzero : t.type ip = 0
      · rw [if_pos hzero] at hwalk
        cases hwalk
      by_cases hdir : t.type ip = T_DIR
      · rw [if_neg hzero, if_neg (not_not.mpr hdir)] at hwalk
        rw [hround, if_neg hzero, if_neg (not_not.mpr hdir), if_neg (fun h => nomatch h.1)]
        cases hlook : dirlookup t ip e with
        | error e => simp [hlook] at hwalk
        | ok r =>
          cases r with
          | none => simp [hlook] at hwalk
          | some next =>
            rw [hlook] at hwalk
            exact ih hnul' (by rw [hrest]; exact hwalk) (by rw [hrest]; omega) hrest
      · rw [if_neg hzero, if_pos hdir] at hwalk
        cases hwalk

theorem walkParent_nil (t : Tree) (ip : Nat) : walkParent t ip [] =
      if t.type ip = 0 then .error "ilock: no type"
      else if t.type ip ≠ T_DIR then .ok none
      else .ok (some ip) := by
  rw [walkParent, walk]
  change (isDirectory t ip).bind _ = _
  unfold isDirectory
  by_cases hdir : t.type ip = T_DIR
  · have hne : t.type ip ≠ 0 := by
      rw [hdir]
      decide
    rw [if_neg hne, if_neg hne, if_neg (not_not.mpr hdir), decide_eq_true hdir]
    rfl
  · rw [if_pos hdir, decide_eq_false hdir]
    split_ifs
    · rfl
    · rfl

theorem walkParent_cons (t : Tree) (ip : Nat) (e : Name) (es : List Name) :
    walkParent t ip (e :: es) =
      if t.type ip = 0 then .error "ilock: no type"
      else if t.type ip ≠ T_DIR then .ok none
      else
        match dirlookup t ip e with
        | .error e => .error e
        | .ok none => .ok none
        | .ok (some next) => walkParent t next es := by
  rw [walkParent, walk_cons]
  split_ifs with hzero hdir
  · rfl
  · rfl
  · cases dirlookup t ip e with
    | error e => rfl
    | ok r =>
      cases r with
      | none => rfl
      | some next => rfl

theorem namexLoop_parent {init : List Name} {last : Name} (hnul : 0 ∉ path)
    (hes : elems path = init ++ [last]) (hrounds : init.length < rounds) :
    (namexLoop t true rounds ip path name).map (fun r => r.map found) =
      some ((walkParent t ip init).map fun r => r.map fun dp => (dp, last)) := by
  induction init generalizing rounds ip path name with
  | nil =>
    obtain ⟨n, rfl⟩ : ∃ n, rounds = n + 1 := ⟨rounds - 1, by omega⟩
    obtain ⟨rest, name', -, -, hname, hround⟩ := namexLoop_cons t true n ip name hnul hes
    rw [hround, walkParent_nil]
    split_ifs with hzero hdir hlast
    · rfl
    · rfl
    · rw [← hname]
      rfl
    · exact absurd ⟨rfl, rfl⟩ hlast
  | cons e init ih =>
    rw [length_cons] at hrounds
    obtain ⟨n, rfl⟩ : ∃ n, rounds = n + 1 := ⟨rounds - 1, by omega⟩
    obtain ⟨rest, name', hrest, hnul', -, hround⟩ := namexLoop_cons t true n ip name hnul hes
    rw [hround, walkParent_cons]
    split_ifs with hzero hdir hlast
    · rfl
    · rfl
    · exact absurd hlast.2 (by simp)
    · cases dirlookup t ip e with
      | error e => rfl
      | ok r =>
        cases r with
        | none => rfl
        | some next => exact ih hnul' hrest (by omega)

theorem walk_append (t : Tree) (ip : Nat) (init : List Name) (last : Name) (x : Nat) :
    walk t ip (init ++ [last]) = .ok (some x) ↔
      ∃ dp, walkParent t ip init = .ok (some dp) ∧ dirlookup t dp last = .ok (some x) := by
  induction init generalizing ip with
  | nil =>
    rw [nil_append, walk_cons, walkParent_nil]
    split_ifs with hzero hdir
    · simp
    · simp
    · cases hlook : dirlookup t ip last with
      | error e => simp [hlook]
      | ok r =>
        cases r with
        | none => simp [hlook]
        | some next => simp [hlook, walk]
  | cons e init ih =>
    rw [cons_append, walk_cons, walkParent_cons]
    split_ifs with hzero hdir
    · simp
    · simp
    · cases dirlookup t ip e with
      | error e => simp
      | ok r =>
        cases r with
        | none => simp
        | some next => exact ih next

section Found

variable {r : Except String (Option Nat × List Byte)} {w : Except String (Option Nat)} {last : Name}
  {dp : Nat} (h : r.map found = w.map fun r => r.map fun dp => (dp, last))

include h

theorem found_of_walk (hw : w = .ok (some dp)) :
    ∃ name, r = .ok (some dp, name) ∧ nameIn name = last := by
  subst hw
  cases r with
  | error e => cases h
  | ok r =>
    obtain ⟨x, name⟩ := r
    cases x with
    | none => cases h
    | some x =>
      cases h
      exact ⟨name, rfl, rfl⟩

theorem walk_of_found {name : List Byte} (hr : r = .ok (some dp, name)) :
    w = .ok (some dp) ∧ nameIn name = last := by
  subst hr
  cases w with
  | error e => cases h
  | ok w =>
    cases w with
    | none => cases h
    | some x =>
      cases h
      exact ⟨rfl, rfl⟩

end Found

/-- `namei` and `nameiparent` walk the elements of the path one by one. -/
theorem path_resolved_by_elements (t : Tree) (cwd : Nat) (path : CString) (buf : List Byte)
    (rounds : Nat) (hrounds : (elems path.bytes).length < rounds) :
    namei t cwd rounds buf path.bytes =
      some (walk t (start cwd path.bytes) (elems path.bytes)) ∧
    (∀ x, namei t cwd rounds buf path.bytes = some (.ok (some x)) →
      namei t cwd (elems path.bytes).length buf path.bytes = none) ∧
    (elems path.bytes = [] →
      nameiparent t cwd rounds path.bytes buf = some (.ok (none, buf))) ∧
    ∀ init last, elems path.bytes = init ++ [last] →
      (nameiparent t cwd rounds path.bytes buf).map (fun r => r.map found) =
        some ((walkParent t (start cwd path.bytes) init).map fun r => r.map fun dp => (dp, last)) ∧
      ∀ x, namei t cwd rounds buf path.bytes = some (.ok (some x)) ↔
        ∃ dp name, nameiparent t cwd rounds path.bytes buf = some (.ok (some dp, name)) ∧
          dirlookup t dp name = .ok (some x) := by
  have hnamei : namei t cwd rounds buf path.bytes =
      some (walk t (start cwd path.bytes) (elems path.bytes)) :=
    namexLoop_walk path.noNul hrounds
  refine ⟨hnamei, fun x hx => ?_, fun hnil => ?_, fun init last hes => ?_⟩
  · have hwalk := Option.some.inj (hnamei.symm.trans hx)
    rw [namei, namex, namexLoop_running path.noNul hwalk (Nat.le_refl _)]
    rfl
  · exact namexLoop_nil hnil (by omega)
  · have hinit : init.length < rounds := by
      rw [hes, length_append] at hrounds
      omega
    have hparent : (nameiparent t cwd rounds path.bytes buf).map (fun r => r.map found) =
        some ((walkParent t (start cwd path.bytes) init).map fun r => r.map fun dp => (dp, last)) :=
      namexLoop_parent path.noNul hes hinit
    refine ⟨hparent, fun x => ?_⟩
    obtain ⟨r, hr, hfound⟩ := Option.map_eq_some_iff.mp hparent
    rw [hnamei, Option.some.injEq, hes, walk_append, hr]
    constructor
    · rintro ⟨dp, hwalk, hlook⟩
      obtain ⟨name, rfl, rfl⟩ := found_of_walk hfound hwalk
      exact ⟨dp, name, rfl, (dirlookup_congr (nameIn_nameIn name).symm t dp).trans hlook⟩
    · rintro ⟨dp, name, hname, hlook⟩
      obtain ⟨hwalk, rfl⟩ := walk_of_found hfound (Option.some.inj hname)
      exact ⟨dp, hwalk, (dirlookup_congr (nameIn_nameIn name) t dp).trans hlook⟩

def oneFile : Tree where
  type i := if i = 1 then T_DIR else if i = 2 then T_FILE else 0
  content i := if i = 1 then newDirent 2 [97] else []

theorem oneFile_resolved : namei oneFile 1 2 [] [47, 47, 97, 47] = some (.ok (some 2)) := by
  obtain ⟨hnamei, -⟩ := path_resolved_by_elements oneFile 1 ⟨[47, 47, 97, 47], by decide⟩ [] 2
    (by decide)
  exact hnamei.trans rfl

end Xv6.Resolve
