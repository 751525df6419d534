import Mathlib.Data.List.DropRight
import Xv6.Fs.Layout

/-!
# Path names

`skipelem` and what the loop of `namex` sees of a path.  A name is a C string of at
most `DIRSIZ` bytes: `namecmp` compares two of them as such, and what stands behind
the terminator in the kernel's buffer is never looked at.
-/

namespace Xv6.Names

open Fs List

abbrev DIRSIZ : Nat := 14

abbrev Name : Type := List Byte

abbrev slash : Byte := 47
abbrev dot : Name := [46]
abbrev dotdot : Name := [46, 46]

/-- `.` and `..`. -/
def isDots (name : Name) : Bool := name == dot || name == dotdot

def skipelem (path : List Byte) : Option (Name × List Byte) :=
  let path := path.dropWhile (· == slash)
  if path = [] then
    none
  else
    let s := path.takeWhile (· != slash)
    let path := path.dropWhile (· != slash)
    some (s.take DIRSIZ, path.dropWhile (· == slash))

/-- The names that successive calls of `skipelem` return, `elems_skipelem`. -/
def elems (path : List Byte) : List Name :=
  ((path.splitOn slash).filter (· ≠ [])).map fun e => e.take DIRSIZ

theorem elems_append {e : List Byte} (h : slash ∉ e) (path : List Byte) :
    elems (e ++ slash :: path) =
      if e = [] then elems path else e.take DIRSIZ :: elems path := by
  have hnone : ∀ c ∈ e, (c == slash) = false := fun c hc =>
    beq_eq_false_iff_ne.mpr fun heq => h (heq ▸ hc)
  unfold elems List.splitOn
  rw [splitOnP_append_cons_of_forall_mem hnone slash (beq_self_eq_true slash)]
  split_ifs with he
  · rw [filter_cons_of_neg (by simpa using he)]
  · rw [filter_cons_of_pos (by simpa using he), map_cons]

theorem elems_single {e : List Byte} (h : slash ∉ e) (hne : e ≠ []) :
    elems e = [e.take DIRSIZ] := by
  unfold elems
  rw [splitOn_eq_singleton h, filter_cons_of_pos (by simpa using hne), filter_nil,
    map_cons, map_nil]

theorem elems_dropSlashes (path : List Byte) :
    elems (path.dropWhile (· == slash)) = elems path := by
  induction path with
  | nil => rfl
  | cons c path ih =>
    rw [dropWhile_cons]
    split_ifs with hc
    · rw [ih, beq_iff_eq.mp hc]
      exact (elems_append not_mem_nil path).symm
    · rfl

theorem elems_skipelem (path : List Byte) : elems path = match skipelem path with
      | none => []
      | some (name, rest) => name :: elems rest := by
  rw [← elems_dropSlashes, skipelem]
  generalize hp : path.dropWhile (· == slash) = p
  by_cases hnil : p = []
  · rw [if_pos hnil, hnil]
    rfl
  · simp only [if_neg hnil]
    rw [elems_dropSlashes]
    have hne : p.takeWhile (· != slash) ≠ [] := by
      have hhead := head_dropWhile_not (· == slash) (l := path) (by rwa [hp])
      obtain ⟨c, cs, rfl⟩ := exists_cons_of_ne_nil hnil
      simp only [hp, head_cons] at hhead
      rw [takeWhile_cons, if_pos (by simpa [bne] using hhead)]
      exact cons_ne_nil _ _
    have hslash : slash ∉ p.takeWhile (· != slash) := fun hmem => by
      simpa using mem_takeWhile_imp hmem
    have hsplit := takeWhile_append_dropWhile (p := (· != slash)) (l := p)
    cases hrest : p.dropWhile (· != slash) with
    | nil =>
      rw [hrest, append_nil] at hsplit
      rw [hsplit] at hslash ⊢
      exact elems_single hslash hnil
    | cons c cs =>
      have hc : c = slash := by
        have hhead := head_dropWhile_not (· != slash) (l := p) (by rw [hrest]; exact nofun)
        simp only [hrest, head_cons] at hhead
        simpa using hhead
      rw [hrest, hc] at hsplit
      rw [← hsplit, elems_append hslash, if_neg hne, hsplit, hc]
      exact congrArg _ (elems_append not_mem_nil cs).symm

theorem elems_rest {path rest : List Byte} {name : Name}
    (h : skipelem path = some (name, rest)) : elems rest = [] ↔ rest = [] := by
  constructor
  · intro hnil
    by_contra hne
    have hclean : rest.dropWhile (· == slash) = rest := by
      unfold skipelem at h
      simp only at h
      split_ifs at h with hpath
      cases h
      exact dropWhile_idempotent _ _
    rw [elems_skipelem] at hnil
    unfold skipelem at hnil
    simp only [hclean, if_neg hne] at hnil
    cases hnil
  · rintro rfl
    rfl

end Xv6.Names
