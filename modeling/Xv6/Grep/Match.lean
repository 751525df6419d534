import Mathlib.Data.List.Induction

/-!
# The matcher of grep

`match`, `matchhere` and `matchstar` of grep.c over C strings, which are the lists of the
bytes before the terminating 0.  `Denotes` gives the meaning of a pattern on its own, and the
matcher finds exactly the texts that contain a string the pattern denotes.
-/

namespace Xv6.Grep

abbrev Byte := BitVec 8

/-- `'*'`, `'$'`, `'.'` and `'^'`. -/
abbrev STAR : Byte := 42
abbrev DOLLAR : Byte := 36
abbrev DOT : Byte := 46
abbrev CARET : Byte := 94

/-- `matchstar`; `here` is `matchhere` with the rest of the pattern. -/
def matchstar (here : List Byte → Bool) (c : Byte) : List Byte → Bool
  | [] => here []
  | t :: text => here (t :: text) || (t == c || c == DOT) && matchstar here c text

/-- The last `if` of `matchhere`: one character of the text against `c`. -/
def matchone (here : List Byte → Bool) (c : Byte) : List Byte → Bool
  | [] => false
  | t :: text => (c == DOT || c == t) && here text

def matchhere : List Byte → List Byte → Bool
  | [], _ => true
  | [c], text => if c = DOLLAR then text.isEmpty else matchone (matchhere []) c text
  | c :: d :: re, text =>
    if d = STAR then matchstar (matchhere re) c text else matchone (matchhere (d :: re)) c text

/-- The loop of `match`, which also looks at the empty string at the end. -/
def matchanywhere (re : List Byte) : List Byte → Bool
  | [] => matchhere re []
  | t :: text => matchhere re (t :: text) || matchanywhere re text

def matchtext (re text : List Byte) : Bool :=
  if re.head? = some CARET then matchhere re.tail text else matchanywhere re text

/-- `t` is an instance of the character `c` of a pattern. -/
def Instance (c t : Byte) : Prop := t = c ∨ c = DOT

/-- The pattern `re` denotes `u` where `post` follows in the text. -/
inductive Denotes : List Byte → List Byte → List Byte → Prop
  | nil (post : List Byte) : Denotes [] [] post
  | star {c : Byte} {ts re u post : List Byte} (copies : ∀ t ∈ ts, Instance c t)
      (rest : Denotes re u post) : Denotes (c :: STAR :: re) (ts ++ u) post
  | dollar : Denotes [DOLLAR] [] []
  | char {c t : Byte} {re u post : List Byte} (single : re.head? ≠ some STAR)
      (inner : c = DOLLAR → re ≠ []) (inst : Instance c t) (rest : Denotes re u post) :
      Denotes (c :: re) (t :: u) post

/-- A string that `re` denotes begins the text. -/
def Begins (re text : List Byte) : Prop := ∃ u post, text = u ++ post ∧ Denotes re u post

theorem matchstar_iff (here : List Byte → Bool) (c : Byte) (text : List Byte) :
    matchstar here c text = true ↔
      ∃ ts rest, text = ts ++ rest ∧ (∀ t ∈ ts, Instance c t) ∧ here rest = true := by
  induction text with
  | nil => simp [matchstar]
  | cons t text ih =>
    simp only [matchstar, Bool.or_eq_true, Bool.and_eq_true, beq_iff_eq, ih]
    constructor
    · rintro (h | ⟨ht, ts, rest, rfl, hts, hrest⟩)
      · exact ⟨[], t :: text, rfl, by simp, h⟩
      · exact ⟨t :: ts, rest, rfl, by simpa [Instance] using ⟨ht, hts⟩, hrest⟩
    · rintro ⟨ts, rest, heq, hts, hrest⟩
      cases ts with
      | nil =>
        left
        rw [heq]
        exact hrest
      | cons x ts =>
        obtain ⟨rfl, rfl⟩ := List.cons.inj heq
        right
        exact ⟨hts t (by simp), ts, rest, rfl, fun y hy => hts y (by simp [hy]), hrest⟩

theorem matchone_iff (here : List Byte → Bool) (c : Byte) (text : List Byte) :
    matchone here c text = true ↔ ∃ t rest, text = t :: rest ∧ Instance c t ∧ here rest = true := by
  cases text with
  | nil => simp [matchone]
  | cons t text =>
    simp only [matchone, Bool.and_eq_true, Bool.or_eq_true, beq_iff_eq, Instance]
    constructor
    · rintro ⟨h | h, hrest⟩
      · exact ⟨t, text, rfl, Or.inr h, hrest⟩
      · exact ⟨t, text, rfl, Or.inl h.symm, hrest⟩
    · rintro ⟨_, _, heq, h, hrest⟩
      obtain ⟨rfl, rfl⟩ := List.cons.inj heq
      exact ⟨h.symm.imp_right Eq.symm, hrest⟩

theorem begins_char_iff {c : Byte} {re : List Byte} (single : re.head? ≠ some STAR)
    (inner : c = DOLLAR → re ≠ []) (text : List Byte) :
    Begins (c :: re) text ↔ ∃ t rest, text = t :: rest ∧ Instance c t ∧ Begins re rest := by
  constructor
  · rintro ⟨u, post, rfl, h⟩
    cases h with
    | star => simp at single
    | dollar => simp at inner
    | char _ _ inst rest => exact ⟨_, _, rfl, inst, _, _, rfl, rest⟩
  · rintro ⟨t, _, rfl, inst, u, post, rfl, h⟩
    exact ⟨t :: u, post, rfl, .char single inner inst h⟩

theorem begins_star_iff (c : Byte) (re text : List Byte) : Begins (c :: STAR :: re) text ↔
      ∃ ts rest, text = ts ++ rest ∧ (∀ t ∈ ts, Instance c t) ∧ Begins re rest := by
  constructor
  · rintro ⟨u, post, rfl, h⟩
    cases h with
    | star copies rest => exact ⟨_, _, List.append_assoc .., copies, _, _, rfl, rest⟩
    | char single => simp at single
  · rintro ⟨ts, _, rfl, copies, u, post, rfl, h⟩
    exact ⟨ts ++ u, post, (List.append_assoc ..).symm, .star copies h⟩

theorem begins_nil (text : List Byte) : Begins [] text := ⟨[], text, rfl, .nil text⟩

theorem begins_dollar_iff (text : List Byte) : Begins [DOLLAR] text ↔ text = [] := by
  constructor
  · rintro ⟨u, post, rfl, h⟩
    cases h with
    | dollar => rfl
    | char _ inner => exact absurd rfl (inner rfl)
  · rintro rfl
    exact ⟨[], [], rfl, .dollar⟩

theorem matchhere_iff (re text : List Byte) : matchhere re text = true ↔ Begins re text := by
  -- A star takes two characters off the pattern, everything else takes one.
  induction re using List.twoStepInduction generalizing text with
  | nil => simp [matchhere, begins_nil]
  | singleton c =>
    rw [matchhere]
    split_ifs with hc
    · rw [hc, begins_dollar_iff, List.isEmpty_iff]
    · simp only [begins_char_iff (show [].head? ≠ some STAR by simp) (absurd · hc),
        matchone_iff, matchhere, begins_nil]
  | cons_cons c d re ih ih' =>
    rw [matchhere]
    split_ifs with hd
    · simp only [hd, begins_star_iff, matchstar_iff, ih]
    · simp only [begins_char_iff (show (d :: re).head? ≠ _ by simpa using hd) (by simp),
        matchone_iff, ih']

theorem matchanywhere_iff (re text : List Byte) :
    matchanywhere re text = true ↔ ∃ pre rest, text = pre ++ rest ∧ Begins re rest := by
  induction text with
  | nil => simp [matchanywhere, matchhere_iff]
  | cons t text ih =>
    rw [matchanywhere, Bool.or_eq_true, matchhere_iff, ih]
    constructor
    · rintro (h | ⟨pre, rest, rfl, h⟩)
      · exact ⟨[], t :: text, rfl, h⟩
      · exact ⟨t :: pre, rest, rfl, h⟩
    · rintro ⟨pre, rest, heq, h⟩
      cases pre with
      | nil =>
        left
        rw [heq]
        exact h
      | cons x pre =>
        obtain ⟨rfl, rfl⟩ := List.cons.inj heq
        exact Or.inr ⟨pre, rest, rfl, h⟩

/-- The pattern without a leading `^`. -/
def unanchored (re : List Byte) : List Byte := if re.head? = some CARET then re.tail else re

/-- `match` returns 1 exactly if some substring of the text is in the language of the pattern,
and that substring is a prefix if the pattern begins with `^`. -/
theorem match_iff_denotes (re text : List Byte) :
    matchtext re text = true ↔
      ∃ pre u post, text = pre ++ (u ++ post) ∧ (re.head? = some CARET → pre = []) ∧
        Denotes (unanchored re) u post := by
  rw [matchtext, unanchored]
  split_ifs with hre
  · rw [matchhere_iff]
    constructor
    · rintro ⟨u, post, rfl, h⟩
      exact ⟨[], u, post, rfl, fun _ => rfl, h⟩
    · rintro ⟨pre, u, post, rfl, hpre, h⟩
      rw [hpre hre]
      exact ⟨u, post, rfl, h⟩
  · rw [matchanywhere_iff]
    constructor
    · rintro ⟨pre, _, rfl, u, post, rfl, h⟩
      exact ⟨pre, u, post, rfl, (absurd · hre), h⟩
    · rintro ⟨pre, u, post, rfl, -, h⟩
      exact ⟨pre, u ++ post, rfl, u, post, rfl, h⟩

end Xv6.Grep
