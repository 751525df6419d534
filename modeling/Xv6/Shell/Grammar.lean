import Xv6.Shell.Parser

/-!
# The grammar of command lines

Which strings are command lines, and the tree each one denotes.  A string is spelled by tokens
with white space between them; the tokens are derived by

    line  ::= pipe '&'* [';' line]
    pipe  ::= exec ['|' pipe]
    exec  ::= block | redir* (word redir*)*
    block ::= '(' line ')' redir*
    redir ::= ('<' | '>' | '>>') word
-/

namespace Xv6.Shell

open Lib Fs List

variable {V W : Type} {ts : List (Tok V)}

def IsWord (w : List Byte) : Prop := w ≠ [] ∧ ∀ c ∈ w, inWord c = true

/-- The tokens of a string.  Words are as long as possible, and two characters `>` in a row are
one token. -/
inductive Spells : List Byte → List (Tok (List Byte)) → Prop where
  | nil : Spells [] []
  | space {c : Byte} {s : List Byte} {ts : List (Tok (List Byte))} (hc : isSpace c = true)
      (hrest : Spells s ts) : Spells (c :: s) ts
  | sym {x : Symbol} {s : List Byte} {ts : List (Tok (List Byte))}
      (hgt : x = .gt → s.head? ≠ some Symbol.gt.char) (hrest : Spells s ts) :
      Spells (x.char :: s) (.sym x :: ts)
  | append {s : List Byte} {ts : List (Tok (List Byte))} (hrest : Spells s ts) :
      Spells (Symbol.gt.char :: Symbol.gt.char :: s) (.append :: ts)
  | word {w s : List Byte} {ts : List (Tok (List Byte))} (hw : IsWord w)
      (hstop : ∀ c, s.head? = some c → inWord c = false) (hrest : Spells s ts) :
      Spells (w ++ s) (.word w :: ts)

inductive Redirs : List (Tok W) → List (Redir W) → Prop where
  | nil : Redirs [] []
  | input {w : W} {ts : List (Tok W)} {rs : List (Redir W)} (hrest : Redirs ts rs) :
      Redirs (.sym .lt :: .word w :: ts) (⟨w, O_RDONLY, .input⟩ :: rs)
  | output {w : W} {ts : List (Tok W)} {rs : List (Redir W)} (hrest : Redirs ts rs) :
      Redirs (.sym .gt :: .word w :: ts) (⟨w, O_WRONLY ||| O_CREATE, .output⟩ :: rs)
  | append {w : W} {ts : List (Tok W)} {rs : List (Redir W)} (hrest : Redirs ts rs) :
      Redirs (.append :: .word w :: ts) (⟨w, O_WRONLY ||| O_CREATE, .output⟩ :: rs)

/-- `(word redir*)*`. -/
inductive Args : List (Tok W) → List W → List (Redir W) → Prop where
  | nil : Args [] [] []
  | cons {w : W} {ts us : List (Tok W)} {ws : List W} {rs qs : List (Redir W)}
      (hredirs : Redirs ts rs) (hrest : Args us ws qs) :
      Args (.word w :: (ts ++ us)) (w :: ws) (rs ++ qs)

inductive Nonterminal where
  | line
  | pipe
  | exec

/-- One `backcmd` for each `&`. -/
def backcmds : Nat → Cmd W → Cmd W
  | 0, c => c
  | k + 1, c => backcmds k (.back c)

inductive Derives : Nonterminal → List (Tok W) → Cmd W → Prop where
  | backs {ts : List (Tok W)} {c : Cmd W} (k : Nat) (hpipe : Derives .pipe ts c) :
      Derives .line (ts ++ List.replicate k (.sym .amp)) (backcmds k c)
  | list {ts us : List (Tok W)} {c d : Cmd W} (k : Nat) (hpipe : Derives .pipe ts c)
      (hline : Derives .line us d) :
      Derives .line (ts ++ (List.replicate k (.sym .amp) ++ .sym .semi :: us))
        (.list (backcmds k c) d)
  | exec {ts : List (Tok W)} {c : Cmd W} (hexec : Derives .exec ts c) : Derives .pipe ts c
  | pipe {ts us : List (Tok W)} {c d : Cmd W} (hexec : Derives .exec ts c)
      (hpipe : Derives .pipe us d) : Derives .pipe (ts ++ .sym .bar :: us) (.pipe c d)
  | block {ts us : List (Tok W)} {c : Cmd W} {rs : List (Redir W)} (hline : Derives .line ts c)
      (hredirs : Redirs us rs) :
      Derives .exec (.sym .lpar :: (ts ++ .sym .rpar :: us)) (redircmd c rs)
  | simple {ts us : List (Tok W)} {ws : List W} {rs qs : List (Redir W)}
      (hredirs : Redirs ts rs) (hargs : Args us ws qs) (hlen : ws.length ≤ MAXARGS - 1) :
      Derives .exec (ts ++ us) (redircmd (.exec ws) (rs ++ qs))

def Denotes (s : List Byte) (c : Cmd (List Byte)) : Prop :=
  ∃ ts, Spells s ts ∧ Derives .line ts c

def Tok.map (f : V → W) : Tok V → Tok W
  | .sym x => .sym x
  | .append => .append
  | .word w => .word (f w)

def Redir.map (f : V → W) (r : Redir V) : Redir W := ⟨f r.file, r.mode, r.fd⟩

def Cmd.map (f : V → W) : Cmd V → Cmd W
  | .exec argv => .exec (argv.map f)
  | .redir cmd file mode fd => .redir (cmd.map f) (f file) mode fd
  | .pipe left right => .pipe (left.map f) (right.map f)
  | .list left right => .list (left.map f) (right.map f)
  | .back cmd => .back (cmd.map f)

theorem redircmd_snoc (c : Cmd W) (rs : List (Redir W)) (r : Redir W) :
    redircmd c (rs ++ [r]) = .redir (redircmd c rs) r.file r.mode r.fd := by
  rw [redircmd, foldl_append]
  rfl

theorem map_redircmd (f : V → W) (c : Cmd V) (rs : List (Redir V)) :
    (redircmd c rs).map f = redircmd (c.map f) (rs.map (Redir.map f)) := by
  induction rs generalizing c with
  | nil => rfl
  | cons r rs ih => exact ih (.redir c r.file r.mode r.fd)

theorem map_backcmds (f : V → W) (k : Nat) (c : Cmd V) :
    (backcmds k c).map f = backcmds k (c.map f) := by
  induction k generalizing c with
  | zero => rfl
  | succ k ih => exact ih (.back c)

variable {f : V → W}

theorem Tok.map_eq_sym {t : Tok V} {x : Symbol} : t.map f = .sym x ↔ t = .sym x := by
  cases t <;> simp [Tok.map]

theorem Tok.map_eq_append {t : Tok V} : t.map f = .append ↔ t = .append := by
  cases t <;> simp [Tok.map]

theorem Tok.map_eq_word {t : Tok V} {w : W} : t.map f = .word w ↔ ∃ v, t = .word v ∧ f v = w := by
  cases t <;> simp [Tok.map]

theorem Redirs.map {rs : List (Redir V)} (h : Redirs ts rs) :
    Redirs (ts.map (Tok.map f)) (rs.map (Redir.map f)) := by
  induction h with
  | nil => exact .nil
  | input _ ih => exact .input ih
  | output _ ih => exact .output ih
  | append _ ih => exact .append ih

theorem Args.map {ws : List V} {rs : List (Redir V)} (h : Args ts ws rs) :
    Args (ts.map (Tok.map f)) (ws.map f) (rs.map (Redir.map f)) := by
  induction h with
  | nil => exact .nil
  | cons hredirs _ ih =>
    simp only [map_cons, map_append]
    exact .cons hredirs.map ih

theorem Derives.map {x : Nonterminal} {c : Cmd V} (h : Derives x ts c) :
    Derives x (ts.map (Tok.map f)) (c.map f) := by
  induction h with
  | backs k _ ih =>
    rw [map_append, map_replicate, map_backcmds]
    exact .backs k ih
  | list k _ _ ihpipe ihline =>
    simp only [map_append, map_replicate, map_cons, Cmd.map, map_backcmds]
    exact .list k ihpipe ihline
  | exec _ ih => exact .exec ih
  | pipe _ _ ihexec ihpipe =>
    simp only [map_append, map_cons, Cmd.map]
    exact .pipe ihexec ihpipe
  | block _ hredirs ih =>
    simp only [map_append, map_cons, map_redircmd]
    exact .block ih hredirs.map
  | simple hredirs hargs hlen =>
    simp only [map_append, map_redircmd, Cmd.map]
    exact .simple hredirs.map hargs.map (by rwa [length_map])

theorem eq_replicate_of_map {k : Nat} {x : Symbol}
    (h : ts.map (Tok.map f) = List.replicate k (.sym x)) : ts = List.replicate k (.sym x) := by
  rw [eq_replicate_iff] at h ⊢
  rw [length_map] at h
  refine ⟨h.1, fun t ht => ?_⟩
  exact Tok.map_eq_sym.mp (h.2 _ (mem_map_of_mem ht))

/-! A derivation for the images of tokens is the image of a derivation. -/

theorem Redirs.of_map {rs' : List (Redir W)}
    (h : Redirs (ts.map (Tok.map f)) rs') : ∃ rs, Redirs ts rs ∧ rs.map (Redir.map f) = rs' := by
  generalize hts : ts.map (Tok.map f) = ts' at h
  induction h generalizing ts with
  | nil =>
    rw [map_eq_nil_iff] at hts
    exact ⟨[], hts ▸ .nil, rfl⟩
  | input _ ih =>
    simp only [map_eq_cons_iff, Tok.map_eq_sym, Tok.map_eq_word] at hts
    obtain ⟨_, _, rfl, rfl, _, us, rfl, ⟨v, rfl, rfl⟩, hus⟩ := hts
    obtain ⟨rs, hrs, rfl⟩ := ih hus
    exact ⟨_, .input hrs, rfl⟩
  | output _ ih =>
    simp only [map_eq_cons_iff, Tok.map_eq_sym, Tok.map_eq_word] at hts
    obtain ⟨_, _, rfl, rfl, _, us, rfl, ⟨v, rfl, rfl⟩, hus⟩ := hts
    obtain ⟨rs, hrs, rfl⟩ := ih hus
    exact ⟨_, .output hrs, rfl⟩
  | append _ ih =>
    simp only [map_eq_cons_iff, Tok.map_eq_append, Tok.map_eq_word] at hts
    obtain ⟨_, _, rfl, rfl, _, us, rfl, ⟨v, rfl, rfl⟩, hus⟩ := hts
    obtain ⟨rs, hrs, rfl⟩ := ih hus
    exact ⟨_, .append hrs, rfl⟩

theorem Args.of_map {ws' : List W} {rs' : List (Redir W)} (h : Args (ts.map (Tok.map f)) ws' rs') :
    ∃ ws rs, Args ts ws rs ∧ ws.map f = ws' ∧ rs.map (Redir.map f) = rs' := by
  generalize hts : ts.map (Tok.map f) = ts' at h
  induction h generalizing ts with
  | nil =>
    rw [map_eq_nil_iff] at hts
    exact ⟨[], [], hts ▸ .nil, rfl, rfl⟩
  | cons hredirs _ ih =>
    simp only [map_eq_cons_iff, map_eq_append_iff, Tok.map_eq_word] at hts
    obtain ⟨_, _, rfl, ⟨v, rfl, rfl⟩, us, us', rfl, hus, hus'⟩ := hts
    rw [← hus] at hredirs
    obtain ⟨rs, hrs, rfl⟩ := hredirs.of_map
    obtain ⟨ws, qs, hargs, rfl, rfl⟩ := ih hus'
    exact ⟨_, _, .cons hrs hargs, rfl, map_append⟩

theorem Derives.of_map {x : Nonterminal} {c' : Cmd W}
    (h : Derives x (ts.map (Tok.map f)) c') : ∃ c, Derives x ts c ∧ c.map f = c' := by
  generalize hts : ts.map (Tok.map f) = ts' at h
  induction h generalizing ts with
  | backs k _ ih =>
    obtain ⟨us, amps, rfl, hus, hamps⟩ := map_eq_append_iff.mp hts
    obtain ⟨c, hc, rfl⟩ := ih hus
    obtain rfl := eq_replicate_of_map hamps
    exact ⟨_, .backs k hc, map_backcmds f k c⟩
  | list k _ _ ihpipe ihline =>
    simp only [map_eq_append_iff, map_eq_cons_iff, Tok.map_eq_sym] at hts
    obtain ⟨us, _, rfl, hus, amps, _, rfl, hamps, _, us', rfl, rfl, hus'⟩ := hts
    obtain ⟨c, hc, rfl⟩ := ihpipe hus
    obtain ⟨d, hd, rfl⟩ := ihline hus'
    obtain rfl := eq_replicate_of_map hamps
    refine ⟨_, .list k hc hd, ?_⟩
    rw [Cmd.map, map_backcmds]
  | exec _ ih =>
    obtain ⟨c, hc, rfl⟩ := ih hts
    exact ⟨c, .exec hc, rfl⟩
  | pipe _ _ ihexec ihpipe =>
    simp only [map_eq_append_iff, map_eq_cons_iff, Tok.map_eq_sym] at hts
    obtain ⟨us, _, rfl, hus, _, us', rfl, rfl, hus'⟩ := hts
    obtain ⟨c, hc, rfl⟩ := ihexec hus
    obtain ⟨d, hd, rfl⟩ := ihpipe hus'
    exact ⟨_, .pipe hc hd, rfl⟩
  | block _ hredirs ih =>
    simp only [map_eq_append_iff, map_eq_cons_iff, Tok.map_eq_sym] at hts
    obtain ⟨_, _, rfl, rfl, us, _, rfl, hus, _, us', rfl, rfl, hus'⟩ := hts
    obtain ⟨c, hc, rfl⟩ := ih hus
    rw [← hus'] at hredirs
    obtain ⟨rs, hrs, rfl⟩ := hredirs.of_map
    exact ⟨_, .block hc hrs, map_redircmd f c rs⟩
  | simple hredirs hargs hlen =>
    obtain ⟨us, us', rfl, hus, hus'⟩ := map_eq_append_iff.mp hts
    rw [← hus] at hredirs
    rw [← hus'] at hargs
    obtain ⟨rs, hrs, rfl⟩ := hredirs.of_map
    obtain ⟨ws, qs, hws, rfl, rfl⟩ := hargs.of_map
    rw [length_map] at hlen
    refine ⟨_, .simple hrs hws hlen, ?_⟩
    rw [map_redircmd, map_append, Cmd.map]

end Xv6.Shell
